import Tiling.Proofs.Uniqueness

/-!
# Nodes that come into the tree

A node that comes into the tree is rejected if an identifier of it is in the tree already. Nothing
looks for repetitions inside that node: it is the host that keeps its own identifiers distinct. So
an identifier that the tree has twice after an accepted action is one that such a node came with
twice.
-/

namespace Tiling

variable {α : Type}

open Node

def Action.goalFault? : Action α → Option Rejection
  | .move parent atRoot _ _ =>
      match Goal.of parent atRoot with
      | .ok _ => none
      | .error r => some r
  | _ => none

/-- The node that an action would bring into the tree: what is inserted, and what is moved without
being in the tree. -/
def State.newcomer? (s : State α) : Action α → Option (Node α)
  | .insert node _ _ => some node
  | .move _ _ _ node => if node.id ∈ s.treeIds then none else some node
  | _ => none

def State.takenId? (s : State α) (node : Node α) : Option NodeId :=
  node.ids.find? (· ∈ s.treeIds)

/-! ## 1. The check -/

/-- The id reported is the first of the newcomer that the tree has already. -/
theorem Node.checkFresh_eq_error {root node : Node α} {id : NodeId}
    (h : node.ids.find? (· ∈ root.ids) = some id) :
    root.checkFresh node = .error (.duplicateId id) := by
  have hcontains : node.ids.find? root.contains = some id := by
    rw [← h]
    refine congrArg (node.ids.find? ·) (funext fun i => ?_)
    rw [Bool.eq_iff_iff, contains_iff, decide_eq_true_iff]
  rw [checkFresh, hcontains]

namespace State

variable {s : State α} {a : Action α} {node : Node α}

theorem carried_of_newcomer (h : s.newcomer? a = some node) : a.carried? = some node := by
  cases a with
  | insert => exact h
  | move =>
    rw [newcomer?, Option.ite_none_left_eq_some] at h
    exact h.2
  | _ => cases h

theorem newcomer?_eq (hcarried : a.carried? = some node) (hnot : node.id ∉ s.treeIds) :
    s.newcomer? a = some node := by
  cases a with
  | insert => exact hcarried
  | move =>
    cases hcarried
    rw [newcomer?, if_neg hnot]
  | _ => cases hcarried

/-- The check comes before all that could reject the action, but for a move without one goal. -/
theorem step_of_takenId {id : NodeId} (hnew : s.newcomer? a = some node)
    (hid : s.takenId? node = some id) :
    s.step a = (s, some (a.goalFault?.getD (.duplicateId id))) := by
  have hmem : id ∈ s.treeIds := by
    rw [takenId?] at hid
    have htaken := List.find?_some hid
    exact of_decide_eq_true htaken
  obtain ⟨root, hroot⟩ : ∃ root, s.root = some root := by
    cases hroot : s.root with
    | none =>
      rw [treeIds, hroot] at hmem
      cases hmem
    | some root => exact ⟨root, rfl⟩
  rw [takenId?, treeIds_eq hroot] at hid
  have hfresh := checkFresh_eq_error hid
  cases a with
  | insert n magnified focused =>
    cases hnew
    have hinsert : s.insert node magnified focused = .error (.duplicateId id) := by
      simp only [insert, hroot, insertInto, hfresh]
      rfl
    show s.attempt _ = _
    rw [attempt, perform, hinsert]
    rfl
  | move parent atRoot index n =>
    rw [newcomer?, Option.ite_none_left_eq_some, treeIds_eq hroot] at hnew
    obtain ⟨hnot, ⟨⟩⟩ := hnew
    have hmove : s.move parent atRoot index node =
        .error ((Action.move parent atRoot index node).goalFault?.getD (.duplicateId id)) := by
      rw [move, Action.goalFault?]
      cases Goal.of parent atRoot with
      | error r => rfl
      | ok goal =>
        simp only [ok_bind, hroot, moveWithin, moved, find?_eq_none.mpr hnot, hfresh]
        rfl
    show s.attempt _ = _
    rw [attempt, perform, hmove]
    rfl
  | _ => cases hnew

/-! ## 2. What an accepted action repeats -/

/-- An edit repeats an id no more often than its newcomer does. -/
theorem Edited.count_le {tree : Option (Node α)} {ids : IdSupply} (h : s.Edited a tree ids)
    (hf : ∀ root, s.root = some root → root.Forked) (hd : s.treeIds.Nodup)
    (hcovers : s.ids.Covers s.treeIds) (hbound : ids.next.toNat < 2 ^ 63)
    (hnew : s.newcomer? a = some node) (id : NodeId) :
    (tree.elim [] Node.survivors).count id ≤ max 1 (node.ids.count id) := by
  have hcarried := carried_of_newcomer hnew
  have hfresh : ∀ id ∈ s.mintedBy a, id ∉ s.treeIds := fun id hid =>
    (h.minted_fresh hf hbound hid).2.1 _ hcovers
  have hapart : ∀ child, s.grafted? a = some child → ∀ id ∈ s.mintedBy a, id ∉ child.ids :=
    fun child hchild id hid => (h.minted_fresh hf hbound hid).2.2 child hchild
  cases h with
  | plant hplanted hroot =>
    cases hcarried.symm.trans hplanted
    exact Nat.le_trans (node.survivors_sublist.count_le id) (Nat.le_max_right ..)
  | @graft _ root _ goal i r hgrafts hroot hgoal hold hr =>
    cases hcarried.symm.trans hgrafts
    have hchild := grafted?_of_new hcarried hroot hold
    have hperm := hr.ids_perm (hf root hroot)
    rw [← mintedBy_eq hroot hgoal hchild, ← treeIds_eq hroot] at hperm
    refine Nat.le_trans ((survivors_sublist r.1).count_le id) ?_
    rw [hperm.count_eq, List.count_append, List.count_append]
    by_cases hid : id ∈ node.ids
    · -- neither the old tree nor what is minted has it besides
      have hminted : id ∉ s.mintedBy a := fun hmem => hapart node hchild id hmem hid
      have htree : id ∉ s.treeIds := treeIds_eq hroot ▸ hold id hid
      rw [List.count_eq_zero.mpr hminted, List.count_eq_zero.mpr htree, Nat.zero_add, Nat.zero_add]
      exact Nat.le_max_right ..
    · have hrest : (s.mintedBy a ++ s.treeIds).Nodup :=
        List.nodup_append'.mpr ⟨s.nodup_mintedBy a, hd, fun id => hfresh id⟩
      have hone := List.nodup_iff_count_le_one.mp hrest id
      rw [List.count_append] at hone
      rw [List.count_eq_zero.mpr hid, Nat.add_zero]
      exact Nat.le_trans hone (Nat.le_max_left ..)
  | @relocate _ _ _ root n k _ _ _ hroot _ hk =>
    -- what is in the tree does not come into it
    have hmem : n.id ∈ s.treeIds := by
      rw [treeIds_eq hroot, ← id_of_find? hk]
      exact id_mem_of_mem_nodes (mem_nodes_of_find? hk)
    rw [newcomer?, if_pos hmem] at hnew
    cases hnew
  | clear | delete => cases hcarried
  | rearrange hb =>
    cases a with
    | swap | resize => cases hcarried
    | _ => cases hb

/-- An accepted action repeats no identifier that does not come with a newcomer twice. -/
theorem count_step_le (hs : Reachable s) (hd : s.treeIds.Nodup)
    (hbound : (s.step a).1.ids.next.toNat < 2 ^ 63) (ha : (s.step a).2 = none) (id : NodeId) :
    (s.step a).1.treeIds.count id ≤ max 1 ((s.newcomer? a).elim 0 (·.ids.count id)) := by
  cases hnew : s.newcomer? a with
  | none =>
    -- without a newcomer nothing is repeated
    have hsound : (Call.perform a).Sound s := fun node hnode hnot => by
      rw [newcomer?_eq hnode hnot] at hnew
      cases hnew
    have hnodup := (call_nodup hs hd hsound hbound).1
    exact Nat.le_trans (List.nodup_iff_count_le_one.mp hnodup id) (Nat.le_max_left ..)
  | some node =>
    have hperform : s.perform a = .ok (s.step a).1 := by
      have hcarried := carried_of_newcomer hnew
      cases a with
      | insert | move => exact step_accepted ha
      | _ => cases hcarried
    rw [Option.elim_some]
    rcases perform_cases hs.settled hperform with ⟨tree, hedited, htree⟩ | ⟨-, htree, -⟩
    · rw [htree]
      exact hedited.count_le hs.settled.forked hd hs.covers hbound hnew id
    · rw [htree]
      exact Nat.le_trans (List.nodup_iff_count_le_one.mp hd id) (Nat.le_max_left ..)

end State

/-- A node that would come into the tree with an identifier that the tree has is rejected, and
nothing changes. After an accepted action the tree has an identifier once at most, unless it came
in with a node that has it more often; it has it no more often than that node. -/
theorem repetitions_come_with_newcomer (s : State α) (a : Action α) (hs : Reachable s)
    (hd : s.treeIds.Nodup) (hbound : (s.step a).1.ids.next.toNat < 2 ^ 63) :
    (∀ node, s.newcomer? a = some node → ∀ id, s.takenId? node = some id →
      s.step a = (s, some (a.goalFault?.getD (.duplicateId id)))) ∧
    ((s.step a).2 = none → ∀ id,
      (s.step a).1.treeIds.count id ≤ max 1 ((s.newcomer? a).elim 0 (·.ids.count id))) :=
  ⟨fun _ hnew _ hid => State.step_of_takenId hnew hid, State.count_step_le hs hd hbound⟩

/-- A container is rejected for the second of its two panes, which is in the tree, and comes in with
another pane instead. -/
theorem container_with_taken_pane_is_rejected :
    ∃ (s : State Unit) (a b : Action Unit), s.treeIds = [⟨1⟩, ⟨2⟩, ⟨3⟩] ∧
      s.step a = (s, some (.duplicateId ⟨3⟩)) ∧ (s.step b).2 = none ∧
      (s.step b).1.treeIds = [⟨1⟩, ⟨2⟩, ⟨3⟩, ⟨4⟩, ⟨5⟩, ⟨6⟩] ∧
      ∀ id, (s.step b).1.treeIds.count id ≤ 1 := by
  let pane (n : UInt64) : Node Unit := .leaf { id := ⟨n⟩ } ()
  let s := State.ofRoot (.branch { id := ⟨1⟩ } [pane 2, pane 3])
  let overlapping : Node Unit := .branch { id := ⟨4⟩ } [pane 5, pane 3]
  let a : Action Unit := .move (some ⟨1⟩) false 0 overlapping
  let node : Node Unit := .branch { id := ⟨4⟩ } [pane 5, pane 6]
  let b : Action Unit := .insert node false true
  have hids : s.treeIds = [⟨1⟩, ⟨2⟩, ⟨3⟩] := by decide +kernel
  have hd : s.treeIds.Nodup := by
    rw [hids]
    decide
  have hrejected := (repetitions_come_with_newcomer s a (.ofRoot _) hd (by decide +kernel)).1
  have haccepted := (repetitions_come_with_newcomer s b (.ofRoot _) hd (by decide +kernel)).2
  have hb : (s.step b).2 = none := by decide +kernel
  have ha : s.newcomer? a = some overlapping := if_neg (by decide +kernel)
  have htaken : s.takenId? overlapping = some ⟨3⟩ := by decide +kernel
  refine ⟨s, a, b, hids, hrejected _ ha _ htaken, hb, by decide +kernel, fun id => ?_⟩
  have hone := List.nodup_iff_count_le_one.mp (by decide +kernel : node.ids.Nodup) id
  have hnew : s.newcomer? b = some node := rfl
  have hcount := haccepted hb id
  rw [hnew, Option.elim_some, Nat.max_eq_left hone] at hcount
  exact hcount

/-- A container that has one pane twice is accepted where the tree has neither. -/
theorem container_with_repeated_pane_comes_in :
    ¬∀ (s : State Unit) (a : Action Unit) (node : Node Unit), Reachable s → s.treeIds.Nodup →
      (s.step a).1.ids.next.toNat < 2 ^ 63 → s.newcomer? a = some node →
      ¬(s.treeIds ++ node.ids).Nodup → (s.step a).2 ≠ none := by
  intro h
  let pane (n : UInt64) : Node Unit := .leaf { id := ⟨n⟩ } ()
  let node : Node Unit := .branch { id := ⟨5⟩ } [pane 2, pane 2]
  let s := State.ofRoot (pane 1)
  exact h s (.insert node false false) node (.ofRoot _) (by decide +kernel) (by decide +kernel) rfl
    (by decide +kernel) (by decide +kernel)

end Tiling
