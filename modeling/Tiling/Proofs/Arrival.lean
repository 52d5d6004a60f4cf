import Tiling.Proofs.Transplant

/-!
# Where a moved node arrives

A move puts the node at the index asked for among the children of the branch asked for, into a new
branch in the place of a leaf, or beside the whole tree. Everything else stays as it is, but for the
old parent, which gives way to its other child if it had two.
-/

namespace Tiling

variable {α : Type}

open Node Context
open scoped List

namespace Node

/-! ## 1. The tree after balancing -/

def standIn (root : Node α) (moved : NodeId) (goal : Goal) (id : NodeId) : NodeId :=
  match root.parent? moved with
  | some p =>
      -- A branch of two that the node has left is replaced by its other child.
      if id = p.id ∧ goal.parent? ≠ some p.id ∧ p.children.length = 2 then
        ((p.children.map Node.id).filter (· ≠ moved)).headD id
      else id
  | none => id

/-- Whether the old parent is left with one child. -/
abbrev Abandons (p : Node α) (goal : Goal) : Prop :=
  goal.parent? ≠ some p.id ∧ p.children.length = 2

/-- The definition with the old parent named. -/
theorem standIn_eq {root p : Node α} {moved : NodeId} {goal : Goal}
    (hp : root.parent? moved = some p) (id : NodeId) :
    root.standIn moved goal id = if id = p.id ∧ Abandons p goal then
      ((p.children.map Node.id).filter (· ≠ moved)).headD id else id := by
  rw [standIn, hp]

/-- The other child of two. -/
theorem exists_other_child {p k : Node α} (hd : p.ids.Nodup) (hk : k ∈ p.children)
    (htwo : p.children.length = 2) :
    ∃ o, (p.children.map Node.id).filter (· ≠ k.id) = [o] ∧ o ≠ p.id := by
  obtain ⟨h, x, y, rfl, hx, hy⟩ := exists_first_child hd hk
  rw [children_branch, List.length_append, List.length_cons] at htwo
  obtain ⟨o, ho⟩ : ∃ o, x ++ y = [o] := List.length_eq_one_iff.mp (by
    rw [List.length_append]
    omega)
  refine ⟨o.id, ?_, ?_⟩
  · rw [children_branch, List.map_append, List.map_cons,
      filter_ne_append_cons (by simpa using hx) (by simpa using hy), ← List.map_append, ho,
      List.map_singleton]
  · have hmem : o ∈ x ++ k :: y := by
      have hin : o ∈ x ++ y := ho ▸ List.mem_singleton_self o
      rw [List.mem_append, List.mem_cons]
      exact (List.mem_append.mp hin).imp_right .inr
    rw [ids_branch, List.nodup_cons] at hd
    rw [id_branch]
    exact fun heq => hd.1 (List.mem_flatMap.mpr ⟨o, hmem, heq ▸ id_mem_ids o⟩)

section

variable {root k p tree t : Node α} {goal : Goal} {i : Nat} {ids : IdSupply}
  {r : Node α × IdSupply}

namespace Transfer

/-- An old parent that does not take the node in loses it from its children. -/
theorem childIds_parent (h : Transfer root k p goal i ids r tree)
    (hparent : goal.parent? ≠ some p.id) : tree.childIds p.id =
      ((p.children.map Node.id).filter (· ≠ k.id)).map (goal.rename root ids.peek) := by
  obtain ⟨hpn, -⟩ := h.parent_mem
  rw [h.transplanted.others_eq _ (id_mem_of_mem_nodes hpn) fun heq =>
    hparent (h.host_eq_iff.mp heq.symm), childIds_of_mem_nodes h.nodup hpn]

theorem exists_other_child (h : Transfer root k p goal i ids r tree)
    (htwo : p.children.length = 2) :
    ∃ o, (p.children.map Node.id).filter (· ≠ k.id) = [o] ∧ o ≠ p.id := by
  obtain ⟨hpn, hkp, -⟩ := h.parent_mem
  exact Node.exists_other_child (nodup_ids_of_mem_nodes h.nodup hpn) hkp htwo

/-- Balancing drops the old parent if that is left with one child, and no other node. -/
theorem dropsOnly (h : Transfer root k p goal i ids r tree) :
    tree.DropsOnly p.id (Abandons p goal) := by
  refine ⟨h.tree_nodup, fun j => ?_, fun hgone => ?_⟩
  · rw [h.mem_survivors_iff, h.ids_perm.mem_iff, List.mem_append, or_and_right]
    refine or_congr_left ?_
    -- a branch that is made is not the old parent
    have hnew : j = ids.peek → j ≠ p.id := by
      rintro rfl heq
      exact h.fresh (heq ▸ id_mem_of_mem_nodes h.parent_mem.1)
    cases hsplits : goal.splits root with
    | false => simp
    | true =>
      rw [if_pos rfl, List.mem_singleton]
      exact ⟨fun hj => ⟨hj.2, fun hgone => hnew hj.2 hgone.1⟩, fun hj => ⟨rfl, hj.1⟩⟩
  · obtain ⟨o, ho, -⟩ := h.exists_other_child hgone.2
    exact ⟨_, by rw [h.childIds_parent hgone.1, ho, List.map_singleton]⟩

/-- What stands in the place of a node after balancing can be told before the move. -/
theorem heirId_rename (h : Transfer root k p goal i ids r tree) (j : NodeId) :
    tree.heirId p.id (Abandons p goal) (goal.rename root ids.peek j) =
      goal.rename root ids.peek (root.standIn k.id goal j) := by
  have hparent : Abandons p goal → ∀ j, goal.rename root ids.peek j = p.id ↔ j = p.id := by
    intro hgone j
    refine Goal.rename_eq_iff h.fresh (id_mem_of_mem_nodes h.parent_mem.1) ?_
    rintro rfl
    exact hgone.1 rfl
  rw [standIn_eq h.parent_eq, heirId]
  by_cases hgone : j = p.id ∧ Abandons p goal
  · obtain ⟨rfl, hgone⟩ := hgone
    obtain ⟨o, ho, -⟩ := h.exists_other_child hgone.2
    rw [(hparent hgone p.id).mpr rfl, if_pos ⟨rfl, hgone⟩, if_pos ⟨rfl, hgone⟩,
      h.childIds_parent hgone.1, ho]
    rfl
  · rw [if_neg hgone, if_neg]
    exact fun hj => hgone ⟨(hparent hj.2 j).mp hj.1, hj.2⟩

end Transfer

/-- A node that has nothing else in its place is in the tree `t`. If it is not the host, it has its
children there except `moved`, with `place` for what stands in their places. -/
def KeptElsewhere (root t : Node α) (moved : NodeId) (goal : Goal) (host : NodeId)
    (place : NodeId → NodeId) : Prop :=
  ∀ id ∈ root.ids, root.standIn moved goal id = id → id ∈ t.ids ∧
    (id ≠ host → t.childIds id = ((root.childIds id).filter (· ≠ moved)).map place)

/-- How a tree is after a move. `new` is the branch that is made if the goal is no branch. -/
inductive Arrived (root : Node α) (moved new : NodeId) (i : Nat) : Goal → Node α → Prop where
  /-- Among the children of a branch. -/
  | joins {t : Node α} {h : Header} {cs : Forest α} (found : root.find? h.id = some (.branch h cs))
      (children_eq : t.childIds h.id =
        (placedAmong moved i (cs.map Node.id)).map (root.standIn moved (.under h.id)))
      (id_eq : t.id = root.standIn moved (.under h.id) root.id)
      (elsewhere : root.KeptElsewhere t moved (.under h.id) h.id
        (root.standIn moved (.under h.id))) :
      Arrived root moved new i (.under h.id) t
  /-- In a branch with a leaf, which takes the place of the leaf or of what the leaf stands in for. -/
  | splits {t : Node α} {h : Header} {d : α} {place : NodeId → NodeId}
      (found : root.find? h.id = some (.leaf h d))
      (children_eq : t.childIds new = if i = 0 then [moved, h.id] else [h.id, moved])
      (place_eq : ∀ id, place id = if root.standIn moved (.under h.id) id = h.id then new
        else root.standIn moved (.under h.id) id)
      (id_eq : t.id = place root.id)
      (elsewhere : root.KeptElsewhere t moved (.under h.id) new place) :
      Arrived root moved new i (.under h.id) t
  /-- In a branch with the whole tree, across it. -/
  | crosses {t : Node α}
      (children_eq : t.childIds new =
        if i = 0 then [moved, root.standIn moved .besideRoot root.id]
        else [root.standIn moved .besideRoot root.id, moved])
      (id_eq : t.id = new) (orientation_eq : t.orientation = root.orientation.reverse)
      (elsewhere : root.KeptElsewhere t moved .besideRoot new (root.standIn moved .besideRoot)) :
      Arrived root moved new i .besideRoot t

namespace Transfer

/-- Balancing after the transfer keeps what is not host as it was, up to the names in its place. -/
theorem keptElsewhere (h : Transfer root k p goal i ids r tree)
    (ht : Condensed tree t p.id (Abandons p goal)) :
    root.KeptElsewhere t k.id goal (goal.host root ids.peek)
      (fun j => goal.rename root ids.peek (root.standIn k.id goal j)) := by
  intro j hj hstays
  have hkept : j ∈ tree.survivors := by
    refine (h.mem_survivors_iff j).mpr (.inr ⟨hj, ?_⟩)
    rintro ⟨rfl, hgone⟩
    obtain ⟨o, ho, hne⟩ := h.exists_other_child hgone.2
    rw [standIn_eq h.parent_eq, if_pos ⟨rfl, hgone⟩, ho] at hstays
    exact hne hstays
  obtain ⟨hmem, hrow⟩ := ht.rows_eq j hkept
  refine ⟨hmem, fun hne => ?_⟩
  rw [hrow, h.transplanted.others_eq j hj hne, List.map_map]
  exact List.map_congr_left fun c _ => h.heirId_rename c

/-- The host has the moved node at its index, among the children that it had. -/
theorem childIds_host (h : Transfer root k p goal i ids r tree)
    (ht : Condensed tree t p.id (Abandons p goal))
    (hkept : goal.host root ids.peek ∈ tree.survivors) :
    t.childIds (goal.host root ids.peek) = (placedAmong k.id i (goal.siblings root)).map
      (tree.heirId p.id (Abandons p goal)) := by
  rw [(ht.rows_eq _ hkept).2, h.transplanted.host_eq]

theorem id_eq (h : Transfer root k p goal i ids r tree)
    (ht : Condensed tree t p.id (Abandons p goal)) :
    t.id = if goal = .besideRoot then ids.peek
      else goal.rename root ids.peek (root.standIn k.id goal root.id) := by
  have hid : tree.id = r.1.id := congrArg Header.id h.header_eq
  rw [ht.id_eq, hid, h.placed.id_eq h.nodup]
  split
  · -- a branch that is made is not the old parent
    rw [heirId, if_neg]
    exact fun hgone => h.fresh (hgone.1 ▸ id_mem_of_mem_nodes h.parent_mem.1)
  · exact h.heirId_rename root.id

theorem heirId_of_ne {j : NodeId} (hne : j ≠ p.id) :
    tree.heirId p.id (Abandons p goal) j = j := by
  rw [heirId, if_neg fun hgone => hne hgone.1]

/-- Nothing else comes to stand in the place of the moved node. -/
theorem heirId_moved (h : Transfer root k p goal i ids r tree) :
    tree.heirId p.id (Abandons p goal) k.id = k.id :=
  heirId_of_ne fun heq => h.parent_mem.2.2 (heq ▸ id_mem_ids k)

/-- A move under a branch puts the node among the children of that branch. -/
theorem joins {hd : Header} {cs : Forest α}
    (h : Transfer root k p (.under hd.id) i ids r tree)
    (ht : Condensed tree t p.id (Abandons p (.under hd.id)))
    (hfind : root.find? hd.id = some (branch hd cs)) :
    Arrived root k.id ids.peek i (.under hd.id) t := by
  have hrename := Goal.rename_of_not_splits (Goal.splits_under hfind) ids.peek
  have hheir := h.heirId_rename
  have hid := h.id_eq ht
  have helsewhere := h.keptElsewhere ht
  obtain ⟨hhost, hsiblings⟩ := Goal.under_branch hfind ids.peek
  rw [hrename] at hheir
  rw [if_neg Goal.noConfusion, hrename] at hid
  rw [hhost, hrename] at helsewhere
  have hkept : hd.id ∈ tree.survivors := by
    refine (h.mem_survivors_iff _).mpr (.inr ⟨id_mem_of_mem_nodes (mem_nodes_of_find? hfind), ?_⟩)
    exact fun hgone => hgone.2.1 (congrArg some hgone.1)
  have hrow := h.childIds_host ht (hhost.symm ▸ hkept)
  rw [hhost, hsiblings, List.map_congr_left fun j _ => hheir j] at hrow
  exact .joins hfind hrow hid helsewhere

/-- A move under a leaf puts the node beside that leaf in a new branch. -/
theorem splits {hd : Header} {d : α} (h : Transfer root k p (.under hd.id) i ids r tree)
    (ht : Condensed tree t p.id (Abandons p (.under hd.id)))
    (hfind : root.find? hd.id = some (leaf hd d)) :
    Arrived root k.id ids.peek i (.under hd.id) t := by
  have hid := h.id_eq ht
  have helsewhere := h.keptElsewhere ht
  obtain ⟨hhost, hsiblings⟩ := Goal.under_leaf hfind ids.peek
  rw [if_neg Goal.noConfusion] at hid
  rw [hhost] at helsewhere
  have hne : hd.id ≠ k.id := fun heq => h.goal_ne (congrArg Goal.under heq)
  -- the old parent has a child, so it is not the leaf
  have hleaf : hd.id ≠ p.id := fun heq => by
    obtain rfl := eq_of_id_eq h.nodup (mem_nodes_of_find? hfind) h.parent_mem.1 heq
    cases h.parent_mem.2.1
  have hkept := (h.mem_survivors_iff ids.peek).mpr (.inl ⟨Goal.splits_under hfind, rfl⟩)
  have hrow := h.childIds_host ht (hhost.symm ▸ hkept)
  rw [hhost, hsiblings, placedAmong_singleton hne] at hrow
  refine .splits hfind (hrow.trans ?_) (fun j => ?_) hid helsewhere
  · split <;> simp only [List.map_cons, List.map_nil, h.heirId_moved, heirId_of_ne hleaf]
  · rw [Goal.rename]
    refine if_congr ?_ rfl rfl
    rw [Goal.under.injEq, Goal.splits_under hfind, isLeaf_leaf, eq_comm]
    exact and_iff_left rfl

/-- A move to the root level puts the node beside the root under a new one. -/
theorem crosses (h : Transfer root k p .besideRoot i ids r tree)
    (ht : Condensed tree t p.id (Abandons p .besideRoot)) :
    Arrived root k.id ids.peek i .besideRoot t := by
  have hheir := h.heirId_rename root.id
  have helsewhere := h.keptElsewhere ht
  rw [Goal.rename_besideRoot] at hheir helsewhere
  have hne : root.id ≠ k.id := fun heq => by
    have hnone : root.parent? k.id = none := parent?_eq_none.mpr (.inl heq.symm)
    rw [h.parent_eq] at hnone
    cases hnone
  have hkept := (h.mem_survivors_iff ids.peek).mpr (.inl ⟨rfl, rfl⟩)
  have hrow := (h.childIds_host ht hkept).trans
    (congrArg (List.map _) (placedAmong_singleton hne i))
  have hheader : tree.header = ⟨ids.peek, root.orientation.reverse, root.size, root.visible⟩ := by
    rw [h.header_eq]
    cases h.placed
    rw [wrap_eq, graft_branch]
    rfl
  refine .crosses (hrow.trans ?_) ((h.id_eq ht).trans (if_pos rfl)) ?_ helsewhere
  · split <;> simp only [List.map_cons, List.map_nil, h.heirId_moved, ← hheir]
  · -- the new branch is kept, so it is the top of the balanced tree
    have hsurvives : tree.survives := by
      rw [survives_iff h.tree_nodup (self_mem_nodes tree), id, hheader]
      exact hkept
    rw [orientation_of_balance? ht.balance?_eq hsurvives, orientation, hheader]

/-- Whatever the goal is, the transferred tree balances to one in which the node has arrived. -/
theorem arrived (h : Transfer root k p goal i ids r tree) :
    ∃ t, tree.balance? = some t ∧ Arrived root k.id ids.peek i goal t := by
  obtain ⟨t, ht⟩ := h.dropsOnly.condensed
  refine ⟨t, ht.balance?_eq, ?_⟩
  cases h.placed with
  | @joins c hd cs hroot hc => exact h.joins ht (find?_hole (m := branch hd cs) hroot hc)
  | @splits c hd d hroot hc => exact h.splits ht (find?_hole (m := leaf hd d) hroot hc)
  | crosses => exact h.crosses ht

end Transfer

end

end Node

/-! ## 2. The move performed -/

namespace State

variable {s : State α} {root node node' k : Node α} {parent : Option NodeId} {atRoot : Bool}
  {i : Nat}

/-- Of a node that is in the tree a move brings the identifier only. -/
theorem move_congr (hroot : s.root = some root) (hk : root.find? node.id = some k)
    (hid : node'.id = node.id) : s.move parent atRoot i node' = s.move parent atRoot i node := by
  have hmoved : ∀ goal, root.moved node' goal = root.moved node goal := fun goal => by
    rw [moved, moved, hid, hk]
  have hwithin : ∀ goal, s.moveWithin root goal i node' = s.moveWithin root goal i node :=
    fun goal => by rw [moveWithin, moveWithin, hmoved, hid]
  rw [move, move, hroot]
  simp only [hwithin]

/-- A move of a node that is in the tree does not look at what is handed in with its identifier. -/
theorem attempt_move_congr (hroot : s.root = some root) (hk : root.find? node.id = some k)
    (hid : node'.id = node.id) :
    s.attempt (.move parent atRoot i node') = s.attempt (.move parent atRoot i node) := by
  rw [attempt, attempt, perform, perform, move_congr hroot hk hid]

/-- An accepted move of a node that is in the tree brings it to its goal. -/
theorem move_arrived {r : State α} {goal : Goal} (hroot : s.root = some root)
    (hf : root.Forked) (hd : root.ids.Nodup) (hcovers : s.ids.Covers root.ids)
    (hbound : s.ids.next.toNat < 2 ^ 63) (hgoal : Goal.of parent atRoot = .ok goal)
    (hk : root.find? k.id = some k) (h : s.move parent atRoot i k = .ok r) :
    ∃ t, r.settle.root = some t ∧ root.Arrived k.id s.ids.peek i goal t := by
  have hkn := mem_nodes_of_find? hk
  obtain ⟨p, placed, hp, hout, hplaced, htree⟩ := relocates_of_move hroot hgoal hk h
  have hreserved : s.ids.reserveAll k.ids = s.ids :=
    (hcovers.of_subset fun id hid => mem_ids_trans hid hkn).reserveAll_eq
  rw [hreserved] at hplaced
  have htransfer : Transfer root k p goal i s.ids placed _ :=
    ⟨hplaced, hd, hf, hkn, hp, hout, hcovers.peek_not_mem hbound, rfl⟩
  obtain ⟨t, ht, harrived⟩ := htransfer.arrived
  refine ⟨t, ?_, harrived⟩
  show r.root.bind balance? = some t
  rw [htree]
  exact ht

end State

/-- An accepted move of a node that the tree has, sent by the host or staged before, puts the node
where it was asked to go and leaves the rest in its place. What it carries besides the identifier of
the node plays no part. -/
theorem moved_node_arrives (s : State α) (a : Action α) (root node : Node α)
    (parent : Option NodeId) (atRoot : Bool) (i : Nat) (hs : Reachable s) (hd : s.treeIds.Nodup)
    (hbound : s.ids.next.toNat < 2 ^ 63) (hroot : s.root = some root) (hnode : node.id ∈ root.ids)
    (hmove : s.performed a = .move parent atRoot i node) (ha : (s.step a).2 = none) :
    ∃ goal t, Goal.of parent atRoot = .ok goal ∧ (s.step a).1.root = some t ∧
      s.ids.peek.isGenerated ∧ s.ids.peek ∉ root.ids ∧
      root.Arrived node.id s.ids.peek i goal t ∧
      ∀ node' : Node α, node'.id = node.id →
        (s.taken a).step (.move parent atRoot i node') = s.step a := by
  have hcovers := hs.covers
  rw [State.treeIds_eq hroot] at hd hcovers
  obtain ⟨k, hkn, hid⟩ := mem_ids.mp hnode
  have hk : root.find? k.id = some k := find?_of_mem_nodes hd hkn
  have hfind : root.find? node.id = some k := hid ▸ hk
  obtain ⟨htaken, -, hids, -⟩ := s.taken_keeps a
  rw [hroot] at htaken
  have hperform := State.step_accepted ha
  rw [hmove] at hperform
  obtain ⟨r, hr, hstep⟩ := State.map_eq_ok hperform
  obtain ⟨goal, hgoal, -⟩ := State.bind_eq_ok hr
  rw [← State.move_congr htaken hfind hid] at hr
  obtain ⟨t, ht, harrived⟩ := State.move_arrived htaken (hs.settled.forked root hroot) hd
    (hids ▸ hcovers) (hids ▸ hbound) hgoal hk hr
  rw [hids, hid] at harrived
  refine ⟨goal, t, hgoal, hstep ▸ ht, IdSupply.isGenerated_peek _, hcovers.peek_not_mem hbound,
    harrived, fun node' hnode' => ?_⟩
  rw [State.step_eq_attempt s a, hmove]
  exact State.attempt_move_congr htaken hfind hnode'

/-- A pane that moves under the only pane beside it: their column gives way to a new one. -/
theorem pane_arrives_under_its_sibling :
    ∃ (s : State Unit) (t : Node Unit),
      (s.apply (.move (some ⟨3⟩) false 0 (.leaf { id := ⟨4⟩ } ()))).root = some t ∧
      t.childIds ⟨1⟩ = [.generated 1, ⟨5⟩] ∧ t.childIds (.generated 1) = [⟨4⟩, ⟨3⟩] := by
  let pane (n : UInt64) : Node Unit := .leaf { id := ⟨n⟩ } ()
  let column : Node Unit := .branch { id := ⟨2⟩ } [pane 3, pane 4]
  let s := State.ofRoot (.branch { id := ⟨1⟩ } [column, pane 5])
  let a : Action Unit := .move (some ⟨3⟩) false 0 (pane 4)
  have hd : s.treeIds.Nodup := by decide +kernel
  have hbound : s.ids.next.toNat < 2 ^ 63 := by decide +kernel
  have ha : (s.step a).2 = none := by decide +kernel
  have hpeek : s.ids.peek = .generated 1 := by decide +kernel
  have hparts : s.root.map (fun root => (root.ids, root.childIds ⟨1⟩, (root.find? ⟨3⟩).map isLeaf,
      [⟨1⟩, ⟨2⟩, ⟨5⟩].map (root.standIn ⟨4⟩ (.under ⟨3⟩)))) =
        some ([⟨1⟩, ⟨2⟩, ⟨3⟩, ⟨4⟩, ⟨5⟩], [⟨2⟩, ⟨5⟩], some true, [⟨1⟩, ⟨3⟩, ⟨5⟩]) := by
    decide +kernel
  obtain ⟨root, hroot, hparts⟩ := Option.map_eq_some_iff.mp hparts
  simp only [Prod.mk.injEq, List.map_cons, List.map_nil, List.cons.injEq] at hparts
  obtain ⟨hids, hchildren, hleaf, hone, htwo, hfive, -⟩ := hparts
  have hnode : (pane 4).id ∈ root.ids := by
    rw [hids]
    decide
  obtain ⟨goal, t, hgoal, ht, -, -, harrived, -⟩ := moved_node_arrives s a root (pane 4) (some ⟨3⟩)
    false 0 (.ofRoot _) hd hbound hroot hnode rfl ha
  have hmoved : (pane 4).id = ⟨4⟩ := rfl
  rw [hpeek, hmoved] at harrived
  have hunder : Goal.under ⟨3⟩ = goal := Except.ok.inj hgoal
  refine ⟨s, t, ht, ?_⟩
  cases harrived with
  | joins found =>
    rw [← Goal.under.inj hunder] at found
    rw [found] at hleaf
    cases hleaf
  | splits found children_eq place_eq id_eq elsewhere =>
    rw [← Goal.under.inj hunder] at children_eq place_eq elsewhere
    obtain ⟨-, hrow⟩ := elsewhere ⟨1⟩ (by rw [hids]; decide) hone
    refine ⟨?_, children_eq⟩
    rw [hrow (by decide), hchildren]
    -- the moved pane is not among these children
    show [_, _] = _
    rw [place_eq, place_eq, htwo, hfive]
    decide
  | crosses => cases hunder

end Tiling
