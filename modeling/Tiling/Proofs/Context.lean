import Tiling.Proofs.Tree

/-!
# Contexts

A context is a tree with a hole. A node found by its identifier sits in the hole of a context that
has no node of that identifier before the hole, and to update the node is to fill the hole anew.
-/

namespace Tiling

variable {α : Type}

/-- A branch with a hole among its children. -/
structure Frame (α : Type) where
  header : Header
  before : Forest α
  after : Forest α

def Frame.fill (f : Frame α) (n : Node α) : Node α :=
  .branch f.header (f.before ++ n :: f.after)

/-- The branches around a hole, from the outermost inwards. -/
abbrev Context (α : Type) := List (Frame α)

namespace Context

def plug : Context α → Node α → Node α
  | [], n => n
  | f :: c, n => f.fill (plug c n)

/-- The identifiers that a search meets before the hole. -/
def idsBefore : Context α → List NodeId
  | [] => []
  | f :: c => f.header.id :: (f.before.flatMap Node.ids ++ idsBefore c)

def idsAfter : Context α → List NodeId
  | [] => []
  | f :: c => idsAfter c ++ f.after.flatMap Node.ids

@[simp] theorem plug_nil (n : Node α) : plug [] n = n := rfl

@[simp] theorem plug_cons (f : Frame α) (c : Context α) (n : Node α) :
    plug (f :: c) n = f.fill (plug c n) := rfl

theorem plug_append (c d : Context α) (n : Node α) : plug (c ++ d) n = plug c (plug d n) := by
  induction c with
  | nil => rfl
  | cons f c ih => rw [List.cons_append, plug_cons, plug_cons, ih]

theorem ids_fill (f : Frame α) (n : Node α) :
    (f.fill n).ids =
      f.header.id :: (f.before.flatMap Node.ids ++ n.ids ++ f.after.flatMap Node.ids) := by
  rw [Frame.fill, Node.ids_branch, List.flatMap_append, List.flatMap_cons, List.append_assoc]

/-- The identifiers of a tree are those before the hole, in the hole and after it. -/
theorem ids_plug (c : Context α) (n : Node α) :
    (plug c n).ids = idsBefore c ++ n.ids ++ idsAfter c := by
  induction c with
  | nil => simp [idsBefore, idsAfter]
  | cons f c ih => simp [ids_fill, ih, idsBefore, idsAfter]

def branchIds (c : Context α) : List NodeId :=
  c.map fun f => f.header.id

theorem branchIds_sublist (c : Context α) (n : Node α) : (branchIds c).Sublist (plug c n).ids := by
  induction c with
  | nil => exact List.nil_sublist _
  | cons f c ih =>
    rw [plug_cons, ids_fill]
    refine .cons_cons _ ?_
    exact ih.trans ((List.sublist_append_right _ _).trans (List.sublist_append_left _ _))

theorem id_plug (c : Context α) (n : Node α) : (plug c n).id = (branchIds c).head?.getD n.id := by
  cases c <;> rfl

end Context

/-! ## 1. Nodes of a tree and contexts -/

namespace Node

open Context

theorem mem_nodes_plug (c : Context α) (n : Node α) : n ∈ (plug c n).nodes := by
  induction c with
  | nil => exact self_mem_nodes n
  | cons f c ih =>
    have hc : plug c n ∈ (f.fill (plug c n)).children := by simp [Frame.fill]
    exact mem_nodes_trans ih (mem_nodes_of_mem_children hc)

/-- Every node of a tree stands in a hole of it. -/
theorem exists_plug_of_mem_nodes {m n : Node α} (hm : m ∈ n.nodes) :
    ∃ c : Context α, n = plug c m := by
  induction n with
  | leaf h d =>
    rw [nodes_leaf, List.mem_singleton] at hm
    exact ⟨[], hm.symm⟩
  | branch h cs ih =>
    rw [nodes_branch, List.mem_cons, List.mem_flatMap] at hm
    rcases hm with rfl | ⟨k, hk, hm⟩
    · exact ⟨[], rfl⟩
    · obtain ⟨c, hc⟩ := ih k hk hm
      obtain ⟨before, after, rfl⟩ := List.append_of_mem hk
      exact ⟨⟨h, before, after⟩ :: c, by rw [plug_cons, Frame.fill, ← hc]⟩

/-! ## 2. Finding and updating a node -/

theorem find?_eq_none {id : NodeId} {n : Node α} : n.find? id = none ↔ id ∉ n.ids := by
  induction n with
  | leaf h d =>
    rw [find?, ids_leaf, List.mem_singleton]
    by_cases hid : h.id = id
    · simp [hid]
    · simp [hid, Ne.symm hid]
  | branch h cs ih =>
    by_cases hid : h.id = id
    · simp [find?, hid]
    · rw [find?, if_neg hid, Forest.find?_eq_findSome?, List.findSome?_eq_none_iff,
        not_mem_ids_branch, and_iff_right (Ne.symm hid)]
      exact forall₂_congr ih

@[simp] theorem contains_iff {id : NodeId} {n : Node α} : n.contains id ↔ id ∈ n.ids := by
  rw [contains, Option.isSome_iff_ne_none, ne_eq, find?_eq_none, not_not]

/-- A search finds the node in the hole if it does not meet its identifier before. -/
theorem find?_plug {c : Context α} {m : Node α} (h : m.id ∉ idsBefore c) :
    (plug c m).find? m.id = some m := by
  induction c with
  | nil => cases m <;> simp [find?]
  | cons f c ih =>
    simp only [idsBefore, List.mem_cons, List.mem_append, not_or] at h
    obtain ⟨hid, hbefore, hc⟩ := h
    -- nothing before the hole answers the search
    have hskip : ∀ b ∈ f.before, b.find? m.id = none := fun b hb =>
      find?_eq_none.mpr fun hmem => hbefore (List.mem_flatMap.mpr ⟨b, hb, hmem⟩)
    rw [plug_cons, Frame.fill, find?, if_neg (Ne.symm hid), Forest.find?_eq_findSome?,
      List.findSome?_append, List.findSome?_eq_none_iff.mpr hskip, Option.none_or,
      List.findSome?_cons, ih hc]

/-- What a search finds stands in a hole, with no node of its identifier before it. -/
theorem exists_plug_of_find? {id : NodeId} {m n : Node α} (h : n.find? id = some m) :
    m.id = id ∧ ∃ c : Context α, n = plug c m ∧ id ∉ idsBefore c := by
  induction n with
  | leaf hd d =>
    by_cases hid : hd.id = id
    · rw [find?, if_pos hid, Option.some.injEq] at h
      exact ⟨h ▸ hid, [], h, List.not_mem_nil⟩
    · simp [find?, hid] at h
  | branch hd cs ih =>
    by_cases hid : hd.id = id
    · rw [find?, if_pos hid, Option.some.injEq] at h
      exact ⟨h ▸ hid, [], h, List.not_mem_nil⟩
    · rw [find?, if_neg hid, Forest.find?_eq_findSome?, List.findSome?_eq_some_iff] at h
      obtain ⟨before, k, after, rfl, hk, hbefore⟩ := h
      obtain ⟨hm, c, rfl, hc⟩ := ih k (by simp) hk
      refine ⟨hm, ⟨hd, before, after⟩ :: c, rfl, ?_⟩
      simp only [idsBefore, List.mem_cons, List.mem_append, List.mem_flatMap, not_or]
      exact ⟨Ne.symm hid, fun ⟨b, hb, hmem⟩ => find?_eq_none.mp (hbefore b hb) hmem, hc⟩

theorem id_of_find? {id : NodeId} {m n : Node α} (h : n.find? id = some m) : m.id = id :=
  (exists_plug_of_find? h).1

theorem mem_nodes_of_find? {id : NodeId} {m n : Node α} (h : n.find? id = some m) :
    m ∈ n.nodes := by
  obtain ⟨-, c, rfl, -⟩ := exists_plug_of_find? h
  exact mem_nodes_plug c m

theorem update?_eq_none {id : NodeId} {f : Node α → Node α} {n : Node α} (h : id ∉ n.ids) :
    n.update? id f = none := by
  induction n with
  | leaf hd d =>
    rw [ids_leaf, List.mem_singleton] at h
    rw [update?, if_neg (Ne.symm h)]
  | branch hd cs ih =>
    rw [not_mem_ids_branch] at h
    obtain ⟨hid, hcs⟩ := h
    -- an induction on the siblings inside the one on the tree
    have hforest : Forest.update? id f cs = none := by
      induction cs with
      | nil => rfl
      | cons c cs ihcs =>
        rw [List.forall_mem_cons] at hcs ih
        rw [Forest.update?, ih.1 hcs.1, ihcs ih.2 hcs.2]
        rfl
    rw [update?, if_neg (Ne.symm hid), hforest]
    rfl

/-- An update changes just what a search finds. -/
theorem update?_plug {c : Context α} {m : Node α} (f : Node α → Node α)
    (h : m.id ∉ idsBefore c) : (plug c m).update? m.id f = some (plug c (f m)) := by
  induction c with
  | nil => cases m <;> simp [update?]
  | cons g c ih =>
    simp only [idsBefore, List.mem_cons, List.mem_append, not_or] at h
    obtain ⟨hid, hbefore, hc⟩ := h
    -- the update passes over the siblings before the hole
    have hforest : ∀ bs : Forest α, m.id ∉ bs.flatMap ids →
        Forest.update? m.id f (bs ++ plug c m :: g.after) =
          some (bs ++ plug c (f m) :: g.after) := by
      intro bs
      induction bs with
      | nil => intro _; simp [Forest.update?, ih hc]
      | cons b bs ihb =>
        intro hbs
        rw [List.flatMap_cons, List.mem_append, not_or] at hbs
        rw [List.cons_append, Forest.update?, update?_eq_none hbs.1, ihb hbs.2]
        rfl
    rw [plug_cons, Frame.fill, update?, if_neg (Ne.symm hid), hforest _ hbefore]
    rfl

/-! ## 3. Parents -/

theorem index?_isSome {id : NodeId} {cs : Forest α} :
    (Forest.index? id cs).isSome ↔ ∃ k ∈ cs, k.id = id := by
  simp [Forest.index?, List.findIdx?_isSome]

/-- A child has the index of the first one with its identifier. -/
theorem childIndex?_branch {h : Header} {x y : Forest α} {k : Node α}
    (hx : ∀ c ∈ x, c.id ≠ k.id) : (branch h (x ++ k :: y)).childIndex? k.id = some x.length := by
  rw [childIndex?, children_branch, Forest.index?, List.findIdx?_append,
    List.findIdx?_eq_none_iff.mpr (by simpa using hx)]
  simp [List.findIdx?_cons]

theorem parent?_leaf (id : NodeId) (h : Header) (d : α) : (leaf h d).parent? id = none := by
  rw [parent?]

/-- A node is sought among the children first, and then below them. -/
theorem parent?_branch (id : NodeId) (h : Header) (cs : Forest α) :
    (branch h cs).parent? id =
      if h.id = id then none
      else if ∃ k ∈ cs, k.id = id then some (branch h cs)
      else cs.findSome? (parent? id) := by
  rw [parent?, Forest.parent?_eq_findSome?]
  simp only [index?_isSome]

/-- A node other than the top one has a parent. -/
theorem parent?_eq_none {id : NodeId} {n : Node α} :
    n.parent? id = none ↔ id = n.id ∨ id ∉ n.ids := by
  induction n with
  | leaf h d =>
    rw [parent?_leaf, ids_leaf, List.mem_singleton, id_leaf]
    exact iff_of_true rfl (em _)
  | branch h cs ih =>
    rw [parent?_branch]
    split
    · next hid => exact iff_of_true rfl (.inl hid.symm)
    · next hid =>
      split
      · next hk =>
        obtain ⟨k, hk, rfl⟩ := hk
        refine iff_of_false (Option.some_ne_none _) ?_
        rintro (heq | hnot)
        · exact hid heq.symm
        · exact hnot (mem_ids_trans (id_mem_ids k) (mem_nodes_of_mem_children hk))
      · next hk =>
        -- neither the top node nor one of its children: the search goes on below them
        rw [List.findSome?_eq_none_iff, id_branch, or_iff_right (Ne.symm hid), not_mem_ids_branch,
          and_iff_right (Ne.symm hid)]
        refine forall₂_congr fun c hc => (ih c hc).trans (or_iff_right fun heq => ?_)
        exact hk ⟨c, hc, heq.symm⟩

theorem updateParent?_eq_none {id : NodeId} {f : Node α → Node α} {n : Node α}
    (h : n.parent? id = none) : n.updateParent? id f = none := by
  induction n with
  | leaf hd d => rw [updateParent?]
  | branch hd cs ih =>
    rw [parent?_branch] at h
    split at h
    · next hid => rw [updateParent?, if_pos hid]
    · next hid =>
      split at h
      · cases h
      · next hk =>
        have hforest : Forest.updateParent? id f cs = none := by
          rw [List.findSome?_eq_none_iff] at h
          clear hk
          induction cs with
          | nil => rfl
          | cons c cs ihcs =>
            rw [List.forall_mem_cons] at h ih
            rw [Forest.updateParent?, ih.1 h.1, ihcs ih.2 h.2]
            rfl
        rw [updateParent?, if_neg hid, if_neg (mt index?_isSome.mp hk), hforest]
        rfl

/-- The parent stands in a hole, and that is where an update of it goes. -/
theorem exists_plug_of_parent? {id : NodeId} {p n : Node α} (h : n.parent? id = some p) :
    ∃ c : Context α, n = plug c p ∧ (∃ k ∈ p.children, k.id = id) ∧
      ∀ f, n.updateParent? id f = some (plug c (f p)) := by
  induction n with
  | leaf hd d => simp [parent?_leaf] at h
  | branch hd cs ih =>
    rw [parent?_branch] at h
    split at h
    · cases h
    · next hid =>
      split at h
      · next hk =>
        cases h
        exact ⟨[], rfl, hk, fun f => by
          rw [updateParent?, if_neg hid, if_pos (index?_isSome.mpr hk)]
          rfl⟩
      · next hk =>
        obtain ⟨before, m, after, rfl, hm, hbefore⟩ := List.findSome?_eq_some_iff.mp h
        obtain ⟨c, rfl, hchild, hupdate⟩ := ih m (by simp) hm
        refine ⟨⟨hd, before, after⟩ :: c, rfl, hchild, fun f => ?_⟩
        -- the children before the one that answers have nothing to update
        have hforest : Forest.updateParent? id f (before ++ plug c p :: after) =
            some (before ++ plug c (f p) :: after) := by
          clear h hk ih
          induction before with
          | nil => simp [Forest.updateParent?, hupdate]
          | cons b before ihb =>
            rw [List.forall_mem_cons] at hbefore
            rw [List.cons_append, Forest.updateParent?, updateParent?_eq_none hbefore.1,
              ihb hbefore.2]
            rfl
        rw [updateParent?, if_neg hid, if_neg (mt index?_isSome.mp hk), hforest]
        rfl

/-- All nodes of a tree but the root have a parent. -/
theorem isSome_parent? {id : NodeId} {n : Node α} :
    (n.parent? id).isSome ↔ id ≠ n.id ∧ id ∈ n.ids := by
  rw [Option.isSome_iff_ne_none, ne_eq, parent?_eq_none, not_or, not_not]

/-- Every node but the top one has a parent to be taken out of. -/
theorem isSome_updateParent? {id : NodeId} {n : Node α} (f : Node α → Node α) :
    (n.updateParent? id f).isSome ↔ id ≠ n.id ∧ id ∈ n.ids := by
  rw [← isSome_parent?]
  cases hp : n.parent? id with
  | none => rw [updateParent?_eq_none hp]
  | some p =>
    obtain ⟨c, -, -, hupdate⟩ := exists_plug_of_parent? hp
    rw [hupdate]
    exact iff_of_true rfl rfl

end Node

end Tiling
