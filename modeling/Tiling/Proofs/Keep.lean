import Tiling.Proofs.Move
import Tiling.Proofs.Supply
import Tiling.State.Step

/-!
# Which identifiers outlive an edit

An edit is followed by balancing, which keeps what the census says. A node that loses a child is the
only one whose number falls, so of the nodes that were kept before it alone can go.
-/

namespace Tiling

variable {α : Type}

open Context
open scoped List

namespace Node

/-! ## 1. What balancing keeps of a census -/

theorem survivors_sublist (n : Node α) : n.survivors.Sublist n.ids := by
  rw [← map_id_census]
  exact List.filter_sublist.map _

theorem survivors_of_not_bears {n : Node α} (h : n.bears = false) : n.survivors = [] := by
  have hids := (prune?_census n).2
  rw [(prune?_eq_none n).mpr h] at hids
  exact hids.symm

/-- What balances without loss has the identifiers of its census. -/
theorem survivors_of_stays {n : Node α} {S : List Entry} (hn : n.census ~ S)
    (hstays : ∀ e ∈ S, e.stays) : n.survivors ~ S.map Entry.id := by
  rw [survivors, List.filter_eq_self.mpr fun e he => hstays e (hn.mem_iff.mp he)]
  exact hn.map _

/-- In a forked tree everything survives. -/
theorem Forked.survivors_perm {m n : Node α} (hf : n.Forked) (h : m.census ~ n.census) :
    m.survivors ~ n.ids := by
  rw [← map_id_census]
  exact survivors_of_stays h fun e he => hf.stays he

/-- Where one number of a census falls by one, only the node of that number can go, and it goes if
it was left with one. -/
theorem survivors_of_lowered {n : Node α} {p : NodeId} {m : Nat} {S R : List Entry}
    (hS : S ~ ⟨p, some (m + 1)⟩ :: R) (hn : n.census ~ ⟨p, some m⟩ :: R)
    (hd : (S.map Entry.id).Nodup) (hstays : ∀ e ∈ S, e.stays) :
    n.survivors.Nodup ∧
      ∀ id, id ∈ n.survivors ↔ id ∈ S.map Entry.id ∧ ¬(id = p ∧ m + 1 = 2) := by
  have hids : n.ids ~ S.map Entry.id := by
    rw [← map_id_census]
    exact (hn.map Entry.id).trans (hS.map Entry.id).symm
  refine ⟨(hids.nodup_iff.mpr hd).sublist n.survivors_sublist, fun id => ?_⟩
  -- `p` is in no other entry, and the other entries stay
  have hp : p ∉ R.map Entry.id := by
    have hcons := (hS.map Entry.id).nodup_iff.mp hd
    exact (List.nodup_cons.mp hcons).1
  have hm : 2 ≤ m + 1 := by
    have hstay := hstays _ (hS.mem_iff.mpr List.mem_cons_self)
    rwa [Entry.stays_branch, decide_eq_true_iff] at hstay
  have hrest : ∀ e ∈ R, e.stays := fun e he => hstays e (hS.mem_iff.mpr (List.mem_cons_of_mem _ he))
  rw [mem_survivors, (hS.map Entry.id).mem_iff, List.map_cons, List.mem_cons]
  constructor
  · rintro ⟨e, he, hstay, rfl⟩
    rcases List.mem_cons.mp (hn.mem_iff.mp he) with rfl | he
    · rw [Entry.stays_branch, decide_eq_true_iff] at hstay
      exact ⟨.inl rfl, by omega⟩
    · have hmem := List.mem_map_of_mem (f := Entry.id) he
      exact ⟨.inr hmem, fun h => hp (h.1 ▸ hmem)⟩
  · rintro ⟨rfl | hmem, hnot⟩
    · have hm' : 2 ≤ m := by
        have := not_and.mp hnot rfl
        omega
      exact ⟨_, hn.mem_iff.mpr List.mem_cons_self, decide_eq_true hm', rfl⟩
    · obtain ⟨e, he, rfl⟩ := List.mem_map.mp hmem
      exact ⟨e, hn.mem_iff.mpr (List.mem_cons_of_mem _ he), hrest e he, rfl⟩

/-- The census of a tree with distinct identifiers has one entry for each node. -/
theorem eq_entry {m n : Node α} {e : Entry} (hd : n.ids.Nodup) (hm : m ∈ n.nodes)
    (he : e ∈ n.census) (hid : e.id = m.id) : e = m.entry := by
  rw [census, List.mem_map] at he
  obtain ⟨k, hk, rfl⟩ := he
  rw [eq_of_id_eq hd hk hm hid]

theorem Forked.entry_branch {h : Header} {cs : Forest α} (hf : (branch h cs).Forked) :
    (branch h cs).entry = ⟨h.id, some cs.length⟩ := by
  rw [← hf.countP_bears]
  rfl

/-! ## 2. Taking a child out -/

/-- A node of the tree and its parent, with their places. -/
theorem exists_plug_parent {root k p : Node α} (hd : root.ids.Nodup) (hk : k ∈ root.nodes)
    (hp : root.parent? k.id = some p) : p ∈ root.nodes ∧ k ∈ p.children ∧ p.id ∉ k.ids := by
  -- the parent has a child of that identifier, and in the tree that is `k` alone
  obtain ⟨hpn, k', hk', hid⟩ := (parent?_eq_some_iff hd).mp hp
  have hkn : k' ∈ root.nodes := mem_nodes_trans (mem_nodes_of_mem_children hk') hpn
  rw [eq_of_id_eq hd hkn hk hid] at hk'
  refine ⟨hpn, hk', fun hmem => ?_⟩
  have hnodup := nodup_ids_of_mem_nodes hd hpn
  rw [ids_eq_cons, List.nodup_cons] at hnodup
  exact hnodup.1 (List.mem_flatMap.mpr ⟨k, hk', hmem⟩)

/-- A deletion takes the node out of the children of its parent. -/
theorem exists_plug_delete {root k p tree : Node α} (hd : root.ids.Nodup) (hk : k ∈ root.nodes)
    (hp : root.parent? k.id = some p)
    (h : root.updateParent? k.id (fun parent => parent.dropChild k.id 0) = some tree) :
    ∃ (c : Context α) (hdr : Header) (x y : Forest α), p = branch hdr (x ++ k :: y) ∧
      root = plug c (branch hdr (x ++ k :: y)) ∧ tree = plug c (branch hdr (x ++ y)) := by
  obtain ⟨hpn, hkp, -⟩ := exists_plug_parent hd hk hp
  obtain ⟨hdr, x, y, rfl, hx, -⟩ := exists_first_child (nodup_ids_of_mem_nodes hd hpn) hkp
  obtain ⟨c, rfl, -, hupdate⟩ := exists_plug_of_parent? hp
  have hdrop := dropChild_branch hdr [] x y k hx
  rw [List.nil_append, List.nil_append, List.length_nil] at hdrop
  rw [hupdate, hdrop, Option.some.injEq] at h
  exact ⟨c, hdr, x, y, rfl, rfl, h.symm⟩

/-- A node taken out of a forked tree goes with all below it, and its parent goes with it if that
had two children. -/
theorem survivors_delete {root p k tree : Node α} {id : NodeId} (hd : root.ids.Nodup)
    (hf : root.Forked) (hk : root.find? id = some k) (hp : root.parent? id = some p)
    (h : root.updateParent? id (fun parent => parent.dropChild id 0) = some tree) :
    tree.survivors.Nodup ∧ ∀ i, i ∈ tree.survivors ↔
      i ∈ root.ids ∧ i ∉ k.ids ∧ ¬(i = p.id ∧ p.children.length = 2) := by
  obtain rfl := id_of_find? hk
  have hkn := mem_nodes_of_find? hk
  obtain ⟨c, hdr, x, y, rfl, rfl, rfl⟩ := exists_plug_delete hd hkn hp h
  have hpf := hf.of_mem_nodes (mem_nodes_plug c _)
  -- the siblings of `k` all have leaves, so their number is the number of the parent without `k`
  have hxy : ∀ j ∈ x ++ y, j.bears := fun j hj => by
    refine ((forked_branch.mp hpf).2 j ?_).bears
    rw [List.mem_append, List.mem_cons]
    exact (List.mem_append.mp hj).imp (fun h => h) .inr
  have hlength : (x ++ k :: y).length = (x ++ y).length + 1 := by
    rw [List.length_append, List.length_cons, List.length_append, Nat.add_assoc]
  have htwo := (forked_branch.mp hpf).1
  have hbears : (branch hdr (x ++ y)).bears := by
    rw [bears_branch_iff, List.countP_eq_length.mpr hxy]
    omega
  obtain ⟨rest, hbefore, hafter⟩ :=
    census_dropChild (d := c) (hf.of_mem_nodes hkn).bears hbears
  rw [List.countP_eq_length.mpr hxy] at hbefore hafter
  -- the entries of the old tree are those of `k` and the others
  have hids := (hbefore.map Entry.id)
  rw [map_id_census, ← List.cons_append, List.map_append, map_id_census] at hids
  have hsplit := hids.nodup_iff.mp hd
  have hkept := survivors_of_lowered (.refl _) hafter (List.nodup_append.mp hsplit).1 fun e he =>
    hf.stays (hbefore.mem_iff.mpr (List.mem_append_left _ he))
  refine ⟨hkept.1, fun i => ?_⟩
  rw [hkept.2, hids.mem_iff, List.mem_append, children_branch, hlength, id_branch]
  constructor
  · rintro ⟨hi, hnot⟩
    exact ⟨.inl hi, fun hik => (List.nodup_append.mp hsplit).2.2 i hi i hik rfl, hnot⟩
  · rintro ⟨hi, hik, hnot⟩
    exact ⟨hi.resolve_right hik, hnot⟩

theorem ids_dropChild_subset (n : Node α) (id : NodeId) (start : Nat) :
    (n.dropChild id start).ids ⊆ n.ids := by
  rw [dropChild]
  split
  · next child rest h =>
    cases n with
    | leaf hd d => cases h
    | branch hd cs =>
      obtain ⟨i, -, h⟩ := Option.bind_eq_some_iff.mp h
      obtain ⟨k, -, h⟩ := Option.bind_eq_some_iff.mp h
      obtain ⟨-, rfl⟩ := Prod.mk.inj (Option.some.inj h)
      rw [ids_branch, ids_branch]
      refine List.cons_subset_cons _ fun j hj => ?_
      obtain ⟨c, hc, hjc⟩ := List.mem_flatMap.mp hj
      exact List.mem_flatMap.mpr ⟨c, List.mem_of_mem_eraseIdx hc, hjc⟩
  · exact List.Subset.refl _

theorem ids_plug_subset {m k : Node α} (h : m.ids ⊆ k.ids) (c : Context α) :
    (plug c m).ids ⊆ (plug c k).ids := by
  intro id
  rw [ids_plug, ids_plug, List.mem_append, List.mem_append, List.mem_append, List.mem_append]
  exact Or.imp_left (Or.imp_right fun hid => h hid)

theorem ids_dropStale_subset (n : Node α) (id parent : NodeId) (start : Nat) :
    (n.dropStale id (some parent) start).ids ⊆ n.ids := by
  rw [Node.dropStale]
  cases h : n.find? parent with
  | none =>
    rw [update?_eq_none (find?_eq_none.mp h), Option.getD_none]
    exact List.Subset.refl _
  | some p =>
    obtain ⟨hid, c, rfl, hc⟩ := exists_plug_of_find? h
    rw [← hid] at hc ⊢
    rw [update?_plug _ hc, Option.getD_some]
    exact ids_plug_subset (ids_dropChild_subset p id start) c

/-- A deletion brings no id in. -/
theorem ids_delete_subset {n p tree : Node α} {id : NodeId} (hp : n.parent? id = some p)
    (h : n.updateParent? id (fun parent => parent.dropChild id 0) = some tree) :
    tree.ids ⊆ n.ids := by
  obtain ⟨c, rfl, -, hupdate⟩ := exists_plug_of_parent? hp
  rw [hupdate, Option.some.injEq] at h
  rw [← h]
  exact ids_plug_subset (ids_dropChild_subset p id 0) c

/-! ## 3. Grafting -/

/-- Placing a child adds its ids, and the fresh one when a leaf is split. -/
theorem Placed.ids_perm {root child : Node α} {i : Nat} {ids : IdSupply} {goal : Goal}
    {r : Node α × IdSupply} (hr : Placed root i child ids goal r) (hf : root.Forked) :
    r.1.ids ~ (if goal.splits root then [ids.peek] else []) ++ (root.ids ++ child.ids) := by
  rcases hr.census hf with ⟨hsplits, -, hafter⟩ | ⟨hsplits, -, q, k, rest, -, hbefore, hafter⟩
  · have hids := hafter.map Entry.id
    rw [List.map_cons, List.map_append, map_id_census, map_id_census, map_id_census] at hids
    rw [if_pos hsplits]
    exact hids
  · have hids := hafter.map Entry.id
    have hroot := hbefore.map Entry.id
    rw [List.map_cons, List.map_append, map_id_census, map_id_census] at hids
    rw [List.map_cons, map_id_census] at hroot
    rw [hsplits, if_neg Bool.false_ne_true, List.nil_append]
    exact hids.trans (hroot.symm.append_right _)

/-- The supply moves on by one exactly when a leaf is split. -/
theorem Placed.supply {root child : Node α} {i : Nat} {ids : IdSupply} {goal : Goal}
    {r : Node α × IdSupply} (hr : Placed root i child ids goal r) (hf : root.Forked) :
    r.2 = if goal.splits root then ids.advance else ids := by
  rcases hr.census hf with ⟨hsplits, heq, -⟩ | ⟨hsplits, heq, -⟩
  · rw [if_pos hsplits, heq]
  · rw [hsplits, if_neg Bool.false_ne_true, heq]

theorem Placed.next_le {root child : Node α} {i : Nat} {ids : IdSupply} {goal : Goal}
    {r : Node α × IdSupply} (hr : Placed root i child ids goal r) (hf : root.Forked) :
    ids.next ≤ r.2.next := by
  rw [hr.supply hf]
  split
  · exact ids.next_le_advance
  · exact UInt64.le_refl _

/-- A new node comes with what balancing keeps of it, and with the branch that is made for it. -/
theorem Placed.mem_survivors {root child : Node α} {i : Nat} {ids : IdSupply} {goal : Goal}
    {r : Node α × IdSupply} (hr : Placed root i child ids goal r) (hf : root.Forked) (id : NodeId) :
    id ∈ r.1.survivors ↔ id ∈ root.ids ∨ id ∈ child.survivors ∨
      (child.bears ∧ goal.splits root ∧ id = ids.peek) := by
  have hchild : id ∈ child.survivors ↔ ∃ e ∈ child.census, e.stays ∧ e.id = id := Node.mem_survivors
  rw [Node.mem_survivors, hchild, ← map_id_census, List.mem_map]
  rcases hr.census hf with ⟨hsplits, -, hafter⟩ | ⟨hsplits, -, q, k, rest, -, hbefore, hafter⟩
  · constructor
    · rintro ⟨e, he, hstay, rfl⟩
      rw [hafter.mem_iff, List.mem_cons, List.mem_append] at he
      rcases he with rfl | he | he
      · rw [Entry.stays_branch, decide_eq_true_iff] at hstay
        refine .inr (.inr ⟨?_, hsplits, rfl⟩)
        cases hb : child.bears with
        | true => rfl
        | false => simp [hb] at hstay
      · exact .inl ⟨e, he, rfl⟩
      · exact .inr (.inl ⟨e, he, hstay, rfl⟩)
    · rintro (⟨e, he, rfl⟩ | ⟨e, he, hstay, rfl⟩ | ⟨hb, -, rfl⟩)
      · exact ⟨e, hafter.mem_iff.mpr (by simp [he]), hf.stays he, rfl⟩
      · exact ⟨e, hafter.mem_iff.mpr (by simp [he]), hstay, rfl⟩
      · exact ⟨_, hafter.mem_iff.mpr List.mem_cons_self, by simp [hb], rfl⟩
  · -- the new parent stays: its number was two or more and does not fall
    have hq : 2 ≤ k := hf.two_le (hbefore.mem_iff.mpr List.mem_cons_self)
    constructor
    · rintro ⟨e, he, hstay, rfl⟩
      rw [hafter.mem_iff, List.mem_cons, List.mem_append] at he
      rcases he with rfl | he | he
      · exact .inl ⟨_, hbefore.mem_iff.mpr List.mem_cons_self, rfl⟩
      · exact .inl ⟨e, hbefore.mem_iff.mpr (List.mem_cons_of_mem _ he), rfl⟩
      · exact .inr (.inl ⟨e, he, hstay, rfl⟩)
    · rintro (⟨e, he, rfl⟩ | ⟨e, he, hstay, rfl⟩ | ⟨-, hs, -⟩)
      · rcases List.mem_cons.mp (hbefore.mem_iff.mp he) with rfl | hrest
        · exact ⟨_, hafter.mem_iff.mpr List.mem_cons_self, decide_eq_true (by omega), rfl⟩
        · exact ⟨e, hafter.mem_iff.mpr (by simp [hrest]), hf.stays he, rfl⟩
      · exact ⟨e, hafter.mem_iff.mpr (by simp [he]), hstay, rfl⟩
      · rw [hsplits] at hs
        cases hs

/-! ## 4. Moving -/

/-- Without the copy, the tree after a graft has the old entries, but the new parent's number is
one higher, and there may be a new branch. -/
theorem Placed.exists_base {root child : Node α} {i : Nat} {ids : IdSupply} {goal : Goal}
    {r : Node α × IdSupply} (hr : Placed root i child ids goal r) (hd : root.ids.Nodup)
    (hf : root.Forked) (hb : child.bears) (hfresh : ids.peek ∉ root.ids) :
    ∃ S : List Entry, r.1.census ~ S ++ child.census ∧
      S.map Entry.id ~ (if goal.splits root then [ids.peek] else []) ++ root.ids ∧
      (S.map Entry.id).Nodup ∧ (∀ e ∈ S, e.stays) ∧
      ∀ p ∈ root.nodes, p.isLeaf = false → ∀ e ∈ S, e.id = p.id →
        e = ⟨p.id, some (p.children.length + if goal.parent? = some p.id then 1 else 0)⟩ := by
  -- in a forked tree a number is the number of all children
  have hentry : ∀ p ∈ root.nodes, p.isLeaf = false → ∀ e ∈ root.census, e.id = p.id →
      e = ⟨p.id, some p.children.length⟩ := by
    intro p hp hleaf e he hid
    rw [eq_entry hd hp he hid]
    cases p with
    | leaf h d => cases hleaf
    | branch h cs => exact (hf.of_mem_nodes hp).entry_branch
  rcases hr.census hf with ⟨hsplits, -, hafter⟩ | ⟨hsplits, -, q, k, rest, rfl, hbefore, hafter⟩
  · rw [hb] at hafter
    refine ⟨⟨ids.peek, some 2⟩ :: root.census, hafter, ?_, ?_, ?_, ?_⟩
    · rw [if_pos hsplits, List.map_cons, map_id_census]
      rfl
    · rw [List.map_cons, map_id_census]
      exact List.nodup_cons.mpr ⟨hfresh, hd⟩
    · exact List.forall_mem_cons.mpr ⟨rfl, fun e he => hf.stays he⟩
    · intro p hp hleaf e he hid
      -- the goal is no branch, so `p` is not the new parent
      have hgoal : goal.parent? ≠ some p.id := by
        intro hq
        cases goal with
        | besideRoot => cases hq
        | under parent =>
          obtain rfl := Option.some.inj hq
          rw [Goal.splits, find?_of_mem_nodes hd hp, Option.any_some, hleaf] at hsplits
          cases hsplits
      rw [if_neg hgoal]
      rcases List.mem_cons.mp he with rfl | he
      · exact absurd (id_mem_of_mem_nodes hp) (hid ▸ hfresh)
      · exact hentry p hp hleaf e he hid
  · rw [hb] at hafter
    have hq : 2 ≤ k := hf.two_le (hbefore.mem_iff.mpr List.mem_cons_self)
    have hids := hbefore.map Entry.id
    rw [List.map_cons, map_id_census] at hids
    refine ⟨⟨q, some (k + 1)⟩ :: rest, hafter, ?_, hids.nodup_iff.mp hd, ?_, ?_⟩
    · rw [hsplits, if_neg Bool.false_ne_true]
      exact hids.symm
    · refine List.forall_mem_cons.mpr ⟨decide_eq_true (by omega), fun e he => ?_⟩
      exact hf.stays (hbefore.mem_iff.mpr (List.mem_cons_of_mem _ he))
    · intro p hp hleaf e he hid
      rcases List.mem_cons.mp he with rfl | hrest
      · have hold := hentry p hp hleaf _ (hbefore.mem_iff.mpr List.mem_cons_self) hid
        obtain ⟨rfl, hk⟩ := Entry.mk.inj hold
        rw [Goal.parent?, if_pos rfl, Option.some.inj hk]
      · -- an entry other than that of the new parent
        have hne : q ≠ p.id := by
          rintro rfl
          have hmem := List.mem_map_of_mem (f := Entry.id) hrest
          exact (List.nodup_cons.mp (hids.nodup_iff.mp hd)).1 (hid ▸ hmem)
        have hgoal : Goal.parent? (.under q) ≠ some p.id := fun h => hne (Option.some.inj h)
        rw [if_neg hgoal]
        exact hentry p hp hleaf e (hbefore.mem_iff.mpr (List.mem_cons_of_mem _ hrest)) hid

/-- What moves is not the root, so it has a parent to be taken out of. -/
theorem Placed.exists_parent {root k : Node α} {i : Nat} {ids : IdSupply} {goal : Goal}
    {r : Node α × IdSupply} (hr : Placed root i k ids goal r) {id : NodeId}
    (hk : root.find? id = some k) (hout : root.checkOutside k goal = .ok ()) :
    ∃ p, root.parent? id = some p := by
  obtain rfl := id_of_find? hk
  cases hp : root.parent? k.id with
  | some p => exact ⟨p, rfl⟩
  | none =>
    have hroot : k.id = root.id :=
      (parent?_eq_none.mp hp).resolve_right (not_not_intro (id_mem_of_mem_nodes
        (mem_nodes_of_find? hk)))
    cases hr with
    | crosses =>
      rw [checkOutside, if_pos hroot] at hout
      cases hout
    | joins heq hc | splits heq hc =>
      -- the goal lies in the tree, and the tree is what would move
      have hself : root.find? root.id = some root := find?_plug (c := []) List.not_mem_nil
      rw [hroot, hself, Option.some.injEq] at hk
      subst hk
      refine absurd ?_ (not_mem_of_checkOutside hout)
      rw [heq]
      exact id_mem_of_mem_nodes (mem_nodes_plug _ _)

/-- The copy does not repeat the identifier of the old parent. -/
theorem Placed.count_le_one {root child : Node α} {i : Nat} {ids : IdSupply} {goal : Goal}
    {r : Node α × IdSupply} (hr : Placed root i child ids goal r) (hd : root.ids.Nodup)
    (hf : root.Forked) (hfresh : ids.peek ∉ root.ids) {id : NodeId} (hid : id ∈ root.ids)
    (hout : id ∉ child.ids) : r.1.ids.count id ≤ 1 := by
  -- of the tree, the copy and what is minted, the tree alone has the identifier
  have hnew : (if goal.splits root then [ids.peek] else []).count id = 0 := by
    rw [List.count_eq_zero]
    have hne : id ≠ ids.peek := fun heq => hfresh (heq ▸ hid)
    split <;> simp [hne]
  rw [(hr.ids_perm hf).count_eq, List.count_append, List.count_append, hnew,
    List.count_eq_zero.mpr hout, Nat.zero_add, Nat.add_zero]
  exact List.nodup_iff_count_le_one.mp hd id

/-- A move lowers the number of the old parent, after raising that of the new one. -/
theorem Placed.exists_lowered {root k p : Node α} {i : Nat} {ids : IdSupply} {goal : Goal}
    {r : Node α × IdSupply} (hr : Placed root i k ids goal r) (hd : root.ids.Nodup)
    (hf : root.Forked) (hk : k ∈ root.nodes) (hp : root.parent? k.id = some p)
    (hout : root.checkOutside k goal = .ok ()) (hfresh : ids.peek ∉ root.ids) :
    ∃ (S R : List Entry) (m : Nat), S ~ ⟨p.id, some (m + 1)⟩ :: R ∧
      (r.1.dropStale k.id (some p.id) (root.staleStart k.id (some p.id) goal i)).census ~
        ⟨p.id, some m⟩ :: R ∧
      S.map Entry.id ~ (if goal.splits root then [ids.peek] else []) ++ root.ids ∧
      (S.map Entry.id).Nodup ∧ (∀ e ∈ S, e.stays) ∧ 2 ≤ p.children.length ∧
      m + 1 = p.children.length + if goal.parent? = some p.id then 1 else 0 := by
  obtain ⟨hpn, hkp, hpk⟩ := exists_plug_parent hd hk hp
  have hkb : k.bears := (hf.of_mem_nodes hk).bears
  have hleaf : p.isLeaf = false := by
    cases p with
    | leaf h d => cases hkp
    | branch h cs => rfl
  have htwo : 2 ≤ p.children.length := hf p hpn hleaf
  have honce := hr.count_le_one hd hf hfresh (id_mem_of_mem_nodes hpn) hpk
  obtain ⟨d, h, x, y, hid, hplug, hdrop⟩ := hr.dropStale hd hpn hkp hout hfresh honce
  obtain ⟨S, hS, hSids, hnodup, hstays, hentry⟩ := hr.exists_base hd hf hkb hfresh
  -- the entry of the old parent after the graft is not one of the copy
  have hmem : ⟨h.id, some ((x ++ y).countP bears + 1)⟩ ∈ r.1.census := by
    rw [hplug, ← countP_bears_child hkb]
    exact List.mem_map_of_mem (f := entry) (mem_nodes_plug d (branch h (x ++ k :: y)))
  have hmemS := (List.mem_append.mp (hS.mem_iff.mp hmem)).resolve_right fun hin => by
    have hin' := List.mem_map_of_mem (f := Entry.id) hin
    rw [map_id_census] at hin'
    exact hpk (hid ▸ hin')
  have hnumber := Option.some.inj (Entry.mk.inj (hentry p hpn hleaf _ hmemS hid)).2
  have hbears : (branch h (x ++ y)).bears := by
    rw [bears_branch_iff]
    omega
  obtain ⟨rest, hbefore, hafter⟩ := census_dropChild (d := d) hkb hbears
  rw [← hplug, hid] at hbefore
  rw [← hdrop, hid] at hafter
  -- the entries of the copy cancel
  have hlowered : S ~ ⟨p.id, some ((x ++ y).countP bears + 1)⟩ :: rest :=
    (List.perm_append_right_iff k.census).mp (hS.symm.trans hbefore)
  exact ⟨S, rest, _, hlowered, hafter, hSids, hnodup, hstays, htwo, hnumber⟩

/-- A move within a forked tree costs the old parent if that had two children and is not the new
parent as well. All else stays, and nothing comes but the branch that is made for the goal. -/
theorem Placed.survivors_move {root k p : Node α} {i : Nat} {ids : IdSupply} {goal : Goal}
    {r : Node α × IdSupply} (hr : Placed root i k ids goal r) (hd : root.ids.Nodup)
    (hf : root.Forked) (hk : k ∈ root.nodes) (hp : root.parent? k.id = some p)
    (hout : root.checkOutside k goal = .ok ()) (hfresh : ids.peek ∉ root.ids) {tree : Node α}
    (htree : r.1.dropStale k.id (some p.id) (root.staleStart k.id (some p.id) goal i) = tree) :
    tree.survivors.Nodup ∧ ∀ id, id ∈ tree.survivors ↔
      (goal.splits root ∧ id = ids.peek) ∨
        (id ∈ root.ids ∧ ¬(id = p.id ∧ goal.parent? ≠ some p.id ∧ p.children.length = 2)) := by
  obtain ⟨S, R, m, hS, hlowered, hSids, hnodup, hstays, htwo, hm⟩ :=
    hr.exists_lowered hd hf hk hp hout hfresh
  rw [htree] at hlowered
  obtain ⟨hkept, hmem⟩ := survivors_of_lowered hS hlowered hnodup hstays
  refine ⟨hkept, fun id => ?_⟩
  have hpid : p.id ∈ root.ids := id_mem_of_mem_nodes (exists_plug_parent hd hk hp).1
  have hnew : id ∈ (if goal.splits root then [ids.peek] else []) ↔
      goal.splits root ∧ id = ids.peek := by
    split <;> simp [*]
  -- the number fell to one just if the new parent is another one and there were two children
  have hcollapse : m + 1 = 2 ↔ goal.parent? ≠ some p.id ∧ p.children.length = 2 := by
    rw [hm]
    split
    · next hgoal => exact iff_of_false (by omega) fun hnot => hnot.1 hgoal
    · next hgoal => simp [hgoal]
  rw [hmem, hSids.mem_iff, List.mem_append, hnew, hcollapse, or_and_right]
  -- the branch that is made is not the old parent
  refine or_congr_left (and_iff_left_of_imp ?_)
  rintro ⟨-, rfl⟩ ⟨heq, -⟩
  exact hfresh (heq ▸ hpid)

/-! ## 5. Giving nodes new shares -/

/-- A new share goes to the node that is found, if there is one. -/
theorem resized_cases (root : Node α) (r : Resize) :
    (r.node ∉ root.ids ∧ root.resized r = root) ∨ ∃ c m, m.id = r.node ∧ root = plug c m ∧
      root.resized r = plug c (m.withSize r.size) := by
  rw [resized]
  cases h : root.find? r.node with
  | none =>
    have hnot := find?_eq_none.mp h
    exact .inl ⟨hnot, by rw [update?_eq_none hnot, Option.getD_none]⟩
  | some m =>
    obtain ⟨hid, c, rfl, hc⟩ := exists_plug_of_find? h
    refine .inr ⟨c, m, hid, rfl, ?_⟩
    rw [← hid] at hc ⊢
    rw [update?_plug _ hc, Option.getD_some]

theorem census_resized (root : Node α) (r : Resize) : (root.resized r).census = root.census := by
  rcases root.resized_cases r with ⟨-, hsame⟩ | ⟨c, m, -, rfl, hplug⟩
  · rw [hsame]
  · rw [hplug]
    exact (census_plug_congr (census_withSize m _) (bears_withSize m _) c).1

/-- Resizing any number of nodes leaves the census alone. -/
theorem census_foldl_resized (shares : List Resize) (root : Node α) :
    (shares.foldl resized root).census = root.census := by
  induction shares generalizing root with
  | nil => rfl
  | cons r shares ih => rw [List.foldl_cons, ih, census_resized]

end Node

end Tiling
