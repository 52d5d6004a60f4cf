import Tiling.Proofs.Context

/-!
# Trees with distinct identifiers

Where no two nodes share an identifier, a node has one place in the tree: lookups by identifier find
the node that is meant, and the parent that is found is the branch that the node is a child of.
-/

namespace Tiling

variable {α : Type}

open Context

/-! ## 1. An identifier that occurs once -/

namespace Node

theorem not_mem_idsBefore {c : Context α} {m : Node α} (h : (plug c m).ids.count m.id ≤ 1) :
    m.id ∉ idsBefore c := by
  rw [ids_plug, List.count_append, List.count_append] at h
  have hm : 0 < m.ids.count m.id := List.count_pos_iff.mpr (id_mem_ids m)
  exact fun hmem => absurd (List.count_pos_iff.mpr hmem) (by omega)

/-- A node whose id occurs once is the one a search for that id finds, whatever else repeats. -/
theorem find?_of_count_le_one {m n : Node α} (hm : m ∈ n.nodes) (h : n.ids.count m.id ≤ 1) :
    n.find? m.id = some m := by
  obtain ⟨c, rfl⟩ := exists_plug_of_mem_nodes hm
  exact find?_plug (not_mem_idsBefore h)

theorem find?_of_mem_nodes {m n : Node α} (hd : n.ids.Nodup) (hm : m ∈ n.nodes) :
    n.find? m.id = some m :=
  find?_of_count_le_one hm (List.nodup_iff_count_le_one.mp hd m.id)

/-- In a tree without repetitions the id settles the node. -/
theorem eq_of_id_eq {m k n : Node α} (hd : n.ids.Nodup) (hm : m ∈ n.nodes) (hk : k ∈ n.nodes)
    (h : m.id = k.id) : m = k := by
  have hfind := find?_of_mem_nodes hd hm
  rw [h, find?_of_mem_nodes hd hk] at hfind
  exact (Option.some.inj hfind).symm

/-- A subtree of a tree without repetitions has none either. -/
theorem nodup_ids_of_mem_nodes {m n : Node α} (hd : n.ids.Nodup) (hm : m ∈ n.nodes) :
    m.ids.Nodup := by
  obtain ⟨c, rfl⟩ := exists_plug_of_mem_nodes hm
  rw [ids_plug] at hd
  exact hd.of_append_left.of_append_right

end Node

theorem Context.length_ids_fill (f : Frame α) (c : Context α) (m : Node α) :
    m.ids.length < (f.fill (plug c m)).ids.length := by
  rw [ids_fill, ids_plug]
  simp only [List.length_cons, List.length_append]
  omega

/-- In a tree with distinct identifiers a node has one place. -/
theorem Context.plug_inj {c d : Context α} {m k : Node α} (hd : (plug c m).ids.Nodup)
    (hid : m.id = k.id) (h : plug c m = plug d k) : c = d ∧ m = k := by
  have hmk : m = k := Node.eq_of_id_eq hd (Node.mem_nodes_plug c m)
    (h ▸ Node.mem_nodes_plug d k) hid
  subst hmk
  refine ⟨?_, rfl⟩
  induction c generalizing d with
  | nil =>
    cases d with
    | nil => rfl
    | cons g d =>
      -- the node would be a proper part of itself
      have hlen := length_ids_fill g d m
      rw [← plug_cons, ← h] at hlen
      exact absurd hlen (Nat.lt_irrefl _)
  | cons f c ih =>
    cases d with
    | nil =>
      have hlen := length_ids_fill f c m
      rw [← plug_cons, h] at hlen
      exact absurd hlen (Nat.lt_irrefl _)
    | cons g d =>
      rw [plug_cons, plug_cons, Frame.fill, Frame.fill, Node.branch.injEq] at h
      obtain ⟨hheader, hforest⟩ := h
      rw [plug_cons, ids_fill, List.nodup_cons, List.nodup_append, List.nodup_append] at hd
      obtain ⟨-, ⟨-, hc, hbefore⟩, -, hafter⟩ := hd
      -- the two holes lie below one child, the only one that has the identifier
      have hmem : m.id ∈ (plug d m).ids := Node.mem_ids_trans (Node.id_mem_ids m)
        (Node.mem_nodes_plug d m)
      have hmem' : m.id ∈ (plug c m).ids := Node.mem_ids_trans (Node.id_mem_ids m)
        (Node.mem_nodes_plug c m)
      have hnot : plug d m ∉ f.before := fun hin =>
        hbefore _ (List.mem_flatMap.mpr ⟨_, hin, hmem⟩) _ hmem' rfl
      have hnot' : plug d m ∉ f.after := fun hin =>
        hafter _ (List.mem_append_right _ hmem') _ (List.mem_flatMap.mpr ⟨_, hin, hmem⟩) rfl
      obtain ⟨hb, hplug, ha⟩ :=
        (List.append_cons_inj_of_notMem hnot hnot').mp hforest
      rw [ih hc hplug]
      cases f
      cases g
      simp_all

/-! ## 2. The parent of a node -/

namespace Node

theorem mem_children_fill (f : Frame α) (m : Node α) : m ∈ (f.fill m).children := by
  simp [Frame.fill]

theorem exists_fill_of_mem_children {k p : Node α} (hk : k ∈ p.children) :
    ∃ f : Frame α, p = f.fill k := by
  cases p with
  | leaf h d => simp at hk
  | branch h cs =>
    obtain ⟨before, after, rfl⟩ := List.append_of_mem hk
    exact ⟨⟨h, before, after⟩, rfl⟩

/-- A node that is a child of two nodes of the tree is a child of one. -/
theorem parent_unique {k k' p p' n : Node α} (hd : n.ids.Nodup) (hp : p ∈ n.nodes)
    (hp' : p' ∈ n.nodes) (hk : k ∈ p.children) (hk' : k' ∈ p'.children) (hid : k.id = k'.id) :
    p = p' := by
  obtain ⟨c, rfl⟩ := exists_plug_of_mem_nodes hp
  obtain ⟨d, hplug⟩ := exists_plug_of_mem_nodes hp'
  obtain ⟨f, rfl⟩ := exists_fill_of_mem_children hk
  obtain ⟨g, rfl⟩ := exists_fill_of_mem_children hk'
  have hplug' : plug (c ++ [f]) k = plug (d ++ [g]) k' := by
    rw [plug_append, plug_append]
    exact hplug
  have hd' : (plug (c ++ [f]) k).ids.Nodup := by
    rw [plug_append]
    exact hd
  obtain ⟨hctx, rfl⟩ := plug_inj hd' hid hplug'
  obtain ⟨-, hf⟩ := List.append_inj' hctx rfl
  rw [List.singleton_inj.mp hf]

/-- The node found as the parent is the branch that has the node as a child. -/
theorem parent?_eq_some_iff {id : NodeId} {p n : Node α} (hd : n.ids.Nodup) :
    n.parent? id = some p ↔ p ∈ n.nodes ∧ ∃ k ∈ p.children, k.id = id := by
  constructor
  · intro h
    obtain ⟨c, rfl, hk, -⟩ := exists_plug_of_parent? h
    exact ⟨mem_nodes_plug c p, hk⟩
  · rintro ⟨hp, k, hk, rfl⟩
    have hkn : k ∈ n.nodes := mem_nodes_trans (mem_nodes_of_mem_children hk) hp
    cases h : n.parent? k.id with
    | none =>
      rcases parent?_eq_none.mp h with heq | hnot
      · -- the top node would lie below `p`
        have hkeq : k = n := eq_of_id_eq hd hkn (self_mem_nodes n) heq
        obtain ⟨c, rfl⟩ := exists_plug_of_mem_nodes hp
        obtain ⟨f, rfl⟩ := exists_fill_of_mem_children hk
        have hplug : plug (c ++ [f]) k = plug [] k := by
          rw [plug_append, plug_nil]
          exact hkeq.symm
        have hd' : (plug (c ++ [f]) k).ids.Nodup := by
          rw [plug_append]
          exact hd
        exact absurd (plug_inj hd' rfl hplug).1 (by simp)
      · exact absurd (id_mem_of_mem_nodes hkn) hnot
    | some p' =>
      -- the parent that is found is a parent of the node, and there is only one
      obtain ⟨c, rfl, ⟨k', hk', hid⟩, -⟩ := exists_plug_of_parent? h
      rw [parent_unique hd hp (mem_nodes_plug c p') hk hk' hid.symm]

/-- Updating the parent of a child rewrites exactly the node that holds it. -/
theorem updateParent?_plug {c : Context α} {k p : Node α} (hd : (plug c p).ids.Nodup)
    (hk : k ∈ p.children) (f : Node α → Node α) :
    (plug c p).updateParent? k.id f = some (plug c (f p)) := by
  have hparent := (parent?_eq_some_iff hd).mpr ⟨mem_nodes_plug c p, k, hk, rfl⟩
  obtain ⟨e, hplug, -, hupdate⟩ := exists_plug_of_parent? hparent
  obtain ⟨rfl, -⟩ := plug_inj hd rfl hplug
  exact hupdate f

end Node

end Tiling
