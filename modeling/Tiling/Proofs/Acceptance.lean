import Tiling.Proofs.Balanced
import Tiling.Proofs.DropTarget
import Tiling.Proofs.SlotOrder

/-!
# Which actions are accepted

In a reachable state with distinct identifiers an action is accepted just if it makes sense for the
tree that is there. The checks are neither too many nor too few: where one of the later steps of an
action could still fail, an earlier check or the shape of the tree rules it out.
-/

namespace Tiling

variable {α : Type}

namespace State

def treeNodes (s : State α) : List (Node α) :=
  s.root.elim [] Node.nodes

/-- Whether the action makes sense for the tree that is there. -/
def Meaningful (s : State α) : Action α → Prop
  | .move parent atRoot _ node =>
      parent.isSome ≠ atRoot ∧
        (s.root = none ∧ atRoot = true ∨
          s.root ≠ none ∧ (∀ p ∈ parent, p ∈ s.treeIds) ∧
            ((∃ k ∈ s.treeNodes, k.id = node.id ∧ s.root.map Node.id ≠ some k.id ∧
                ∀ p ∈ parent, p ∉ k.ids) ∨
              ∀ id ∈ node.ids, id ∉ s.treeIds))
  | .insert node _ _ => ∀ id ∈ node.ids, id ∉ s.treeIds
  | .delete id | .focus id | .toggleMagnified id => id ∈ s.treeIds
  | .swap first second =>
      first ≠ second ∧ ∃ a ∈ s.treeNodes, ∃ b ∈ s.treeNodes, a.id = first ∧ b.id = second ∧
        second ∉ a.ids ∧ first ∉ b.ids
  | .resize shares =>
      s.root ≠ none ∧
        ∀ r ∈ shares, r.size.isFinite = true ∧ 0.0 < r.size ∧ r.node ∈ s.treeIds
  | .stageDrop target moved zone =>
      target ≠ moved ∧ ∃ t ∈ s.treeNodes, ∃ m ∈ s.treeNodes, t.id = target ∧ m.id = moved ∧
        target ∉ m.ids ∧ (zone = .center → moved ∉ t.ids)
  | .commitStaged => s.staged ≠ none
  | .clearStaged => True

theorem treeNodes_eq {s : State α} {root : Node α} (h : s.root = some root) :
    s.treeNodes = root.nodes := by
  rw [treeNodes, h, Option.elim_some]

/-! ## 1. Checks -/

theorem isOk_map {ε β γ : Type} {f : β → γ} (x : Except ε β) : (x.map f).isOk ↔ x.isOk := by
  cases x <;> exact Iff.rfl

/-- A sequence of checks passes if each of them does. -/
theorem isOk_bind_iff {ε β γ : Type} {x : Except ε β} {f : β → Except ε γ} :
    (x >>= f).isOk ↔ ∃ b, x = .ok b ∧ (f b).isOk := by
  constructor
  · intro h
    cases x with
    | error e => cases h
    | ok b => exact ⟨b, rfl, h⟩
  · rintro ⟨b, rfl, h⟩
    exact h

theorem isOk_pure {ε β : Type} (b : β) : (pure b : Except ε β).isOk = true := rfl

theorem isOk_seq {ε β γ : Type} {x : Except ε β} {y : Except ε γ} :
    (x >>= fun _ => y).isOk ↔ x.isOk ∧ y.isOk := by
  cases x with
  | error e => exact iff_of_false Bool.false_ne_true fun h => Bool.false_ne_true h.1
  | ok b => exact (and_iff_right rfl).symm

theorem isOk_bind_eq {ε β γ : Type} {x : Except ε β} {f : β → Except ε γ}
    (h : ∀ b, (f b).isOk = true) : (x >>= f).isOk = x.isOk := by
  cases x with
  | error e => rfl
  | ok b => exact h b

/-- Only the check in front can fail. -/
theorem isOk_guard {ε β : Type} {b : Bool} {e : ε} {x : Except ε β} (h : x.isOk) :
    (if !b then throw e else x).isOk ↔ b := by
  cases b with
  | false => exact iff_of_false Bool.false_ne_true Bool.false_ne_true
  | true => exact iff_of_true h rfl

theorem isOk_rootOf_bind {γ : Type} {s : State α} {f : Node α → Except Rejection γ} :
    (s.rootOf >>= f).isOk ↔ ∃ root, s.root = some root ∧ (f root).isOk := by
  rw [isOk_bind_iff]
  refine exists_congr fun root => and_congr_left fun _ => ⟨rootOf_eq_ok, fun hroot => ?_⟩
  rw [rootOf, hroot]

/-- An action is accepted if the action that it comes down to can be performed. -/
theorem step_accepted_iff (s : State α) (a : Action α) :
    (s.step a).2 = none ↔ ((s.taken a).perform (s.performed a)).isOk := by
  rw [step_eq_attempt, attempt]
  cases (s.taken a).perform (s.performed a) with
  | ok t => exact iff_of_true rfl rfl
  | error r => exact iff_of_false (Option.some_ne_none r) Bool.false_ne_true

end State

open State

namespace Node

variable {root : Node α}

/-- The check passes what brings in new identifiers only. -/
theorem isOk_checkFresh {node : Node α} :
    (root.checkFresh node).isOk ↔ ∀ id ∈ node.ids, id ∉ root.ids := by
  rw [checkFresh]
  split
  · next id hid =>
    refine iff_of_false Bool.false_ne_true fun hnew => ?_
    exact hnew id (List.mem_of_find?_eq_some hid) (contains_iff.mp (List.find?_some hid))
  · next hnone =>
    refine iff_of_true rfl fun id hid hmem => ?_
    exact List.find?_eq_none.mp hnone id hid (contains_iff.mpr hmem)

theorem isOk_checkGoal {goal : Goal} :
    (root.checkGoal goal).isOk ↔ ∀ p ∈ goal.parent?, p ∈ root.ids := by
  cases goal with
  | besideRoot => exact iff_of_true rfl nofun
  | under parent =>
    rw [checkGoal]
    split
    · next hin => exact iff_of_true rfl fun p hp => Option.some.inj hp ▸ contains_iff.mp hin
    · next hout =>
      exact iff_of_false Bool.false_ne_true fun h => hout (contains_iff.mpr (h parent rfl))

/-- The root has every goal below it, so a goal outside the node keeps the root from moving. -/
theorem isOk_checkOutside {k : Node α} {goal : Goal} (hd : root.ids.Nodup) (hk : k ∈ root.nodes)
    (hgoal : ∀ p ∈ goal.parent?, p ∈ root.ids) :
    (root.checkOutside k goal).isOk ↔ k.id ≠ root.id ∧ ∀ p ∈ goal.parent?, p ∉ k.ids := by
  cases goal with
  | besideRoot =>
    rw [checkOutside]
    split
    · next hroot => exact iff_of_false Bool.false_ne_true fun h => h.1 hroot
    · next hroot => exact iff_of_true rfl ⟨hroot, fun p hp => absurd hp (Option.not_mem_none p)⟩
  | under parent =>
    rw [checkOutside]
    split
    · next hin =>
      exact iff_of_false Bool.false_ne_true fun h => h.2 parent rfl (contains_iff.mp hin)
    · next hout =>
      rw [contains_iff] at hout
      refine iff_of_true rfl ⟨fun hroot => ?_, fun p hp => Option.some.inj hp ▸ hout⟩
      obtain rfl := eq_of_id_eq hd hk (self_mem_nodes root) hroot
      exact hout (hgoal parent rfl)

/-- A node can be moved if it is in the tree, is not the root and does not hold the goal, or if it
is new. -/
theorem isOk_moved {node : Node α} {goal : Goal} (hd : root.ids.Nodup) :
    (root.moved node goal).isOk ↔ (∀ p ∈ goal.parent?, p ∈ root.ids) ∧
      ((∃ k ∈ root.nodes, k.id = node.id ∧ k.id ≠ root.id ∧ ∀ p ∈ goal.parent?, p ∉ k.ids) ∨
        ∀ id ∈ node.ids, id ∉ root.ids) := by
  rw [moved]
  split
  · next k hk =>
    have hid := id_of_find? hk
    have hkn := mem_nodes_of_find? hk
    -- the node is in the tree, so it is no new one
    have hold : ¬∀ id ∈ node.ids, id ∉ root.ids := fun h =>
      h node.id (id_mem_ids node) (hid ▸ id_mem_of_mem_nodes hkn)
    rw [isOk_seq, isOk_seq, isOk_pure, and_iff_left rfl, isOk_checkGoal, and_comm,
      or_iff_left hold]
    refine and_congr_right fun hgoal => (isOk_checkOutside hd hkn hgoal).trans ?_
    constructor
    · exact fun h => ⟨k, hkn, hid, h⟩
    · rintro ⟨m, hm, hmid, h⟩
      rwa [eq_of_id_eq hd hkn hm (hid.trans hmid.symm)]
  · next hnone =>
    have hout := find?_eq_none.mp hnone
    rw [isOk_seq, isOk_seq, isOk_pure, and_iff_left rfl, isOk_checkGoal, isOk_checkFresh,
      and_comm, or_iff_right]
    rintro ⟨m, hm, hmid, -⟩
    exact hout (hmid ▸ id_mem_of_mem_nodes hm)

/-- A share can be written if it can stand and its node is in the tree. -/
theorem isOk_checkResize {r : Resize} :
    (root.checkResize r).isOk ↔ r.size.isFinite = true ∧ 0.0 < r.size ∧ r.node ∈ root.ids := by
  have husable : Share.usable r.size = true ↔ r.size.isFinite = true ∧ 0.0 < r.size := by
    rw [Share.usable, Bool.and_eq_true, decide_eq_true_iff]
  rw [← and_assoc, ← husable, ← contains_iff, checkResize]
  cases Share.usable r.size <;> cases root.contains r.node <;> simp [Except.isOk, Except.toBool]

theorem isOk_forM_checkResize {shares : List Resize} :
    (shares.forM root.checkResize).isOk ↔ ∀ r ∈ shares, (root.checkResize r).isOk := by
  induction shares with
  | nil => exact iff_of_true rfl nofun
  | cons r shares ih =>
    rw [List.forall_mem_cons, ← ih]
    exact isOk_seq

/-! ## 2. Drops -/

/-- A drop onto a side has a place to go: the target itself, or one beside it. -/
theorem exists_ofDrop? {target : Node α} (hd : root.ids.Nodup) (htarget : target ∈ root.nodes)
    (axis : Orientation) (zone : DropZone) :
    ∃ place, Placement.ofDrop? root target axis zone = some place := by
  rw [Placement.ofDrop?]
  split
  · exact ⟨_, rfl⟩
  · rw [Placement.beside?]
    by_cases hroot : target.id = root.id
    · rw [parent?_eq_none.mpr (.inl hroot)]
      exact ⟨_, if_pos hroot⟩
    · obtain ⟨h, x, y, hp, -, hindex⟩ := parent?_cases hd htarget hroot
      simp only [hp, hindex]
      exact ⟨_, rfl⟩

/-- The root is not swapped, for one of two nodes is below the other then. -/
theorem isOk_resolveSwap {t m : Node α} (hd : root.ids.Nodup) (ht : t ∈ root.nodes)
    (hm : m ∈ root.nodes) (hout : t.id ∉ m.ids) :
    (root.resolveSwap t m).isOk ↔ m.id ∉ t.ids := by
  rw [resolveSwap]
  split
  · next hroot =>
    refine iff_of_false Bool.false_ne_true fun hin => ?_
    rcases (Bool.or_eq_true _ _).mp hroot with hroot | hroot
    · obtain rfl := eq_of_id_eq hd ht (self_mem_nodes root) (of_decide_eq_true hroot)
      exact hin (id_mem_of_mem_nodes hm)
    · obtain rfl := eq_of_id_eq hd hm (self_mem_nodes root) (of_decide_eq_true hroot)
      exact hout (id_mem_of_mem_nodes ht)
  · split
    · next hin => exact iff_of_false Bool.false_ne_true (not_not_intro (contains_iff.mp hin))
    · next hin => exact iff_of_true rfl (mt contains_iff.mpr hin)

theorem axis?_eq_none {zone : DropZone} : zone.axis? = none ↔ zone = .center := by
  cases zone <;> decide

/-- A drop is rejected only onto the node itself or into its own subtree, and onto the middle of a
node around it. -/
theorem isOk_resolveDrop {target moved : NodeId} {zone : DropZone} (hd : root.ids.Nodup) :
    (root.resolveDrop target moved zone).isOk ↔ target ≠ moved ∧
      ∃ t ∈ root.nodes, ∃ m ∈ root.nodes, t.id = target ∧ m.id = moved ∧
        target ∉ m.ids ∧ (zone = .center → moved ∉ t.ids) := by
  rw [resolveDrop]
  split
  · next hsame => exact iff_of_false Bool.false_ne_true fun h => h.1 hsame
  · next hne =>
    rw [and_iff_right hne]
    split
    · next hnone =>
      refine iff_of_false Bool.false_ne_true ?_
      rintro ⟨t, ht, m, hm, rfl, -⟩
      exact find?_eq_none.mp hnone (id_mem_of_mem_nodes ht)
    · next hnone =>
      refine iff_of_false Bool.false_ne_true ?_
      rintro ⟨t, ht, m, hm, -, rfl, -⟩
      exact find?_eq_none.mp hnone (id_mem_of_mem_nodes hm)
    · next t m ht hm =>
      obtain rfl := id_of_find? ht
      obtain rfl := id_of_find? hm
      have htn := mem_nodes_of_find? ht
      have hmn := mem_nodes_of_find? hm
      -- the two nodes are the only ones of their identifiers
      have hpair : (∃ u ∈ root.nodes, ∃ k ∈ root.nodes, u.id = t.id ∧ k.id = m.id ∧
          t.id ∉ k.ids ∧ (zone = .center → m.id ∉ u.ids)) ↔
          t.id ∉ m.ids ∧ (zone = .center → m.id ∉ t.ids) := by
        constructor
        · rintro ⟨u, hu, k, hk, hut, hkm, h⟩
          rwa [eq_of_id_eq hd hu htn hut, eq_of_id_eq hd hk hmn hkm] at h
        · exact fun h => ⟨t, htn, m, hmn, rfl, rfl, h⟩
      rw [hpair]
      split
      · next hin =>
        exact iff_of_false Bool.false_ne_true fun h => h.1 (contains_iff.mp hin)
      · next hout =>
        rw [contains_iff] at hout
        rw [and_iff_right hout]
        split
        · next haxis =>
          rw [isOk_map, isOk_resolveSwap hd htn hmn hout, axis?_eq_none.mp haxis]
          exact ⟨fun h _ => h, fun h => h rfl⟩
        · next axis haxis =>
          have hside : zone ≠ .center := fun h => by simp [axis?_eq_none.mpr h] at haxis
          obtain ⟨place, hplace⟩ := exists_ofDrop? hd htn axis zone
          refine iff_of_true ?_ fun h => absurd h hside
          simp only [hplace]
          split <;> rfl

/-- Of two nodes apart neither is below the other. -/
theorem Apart.not_mem_ids {a b : Node α} {p q : Path} (hd : root.ids.Nodup)
    (h : root.Apart p q a b) : b.id ∉ a.ids := by
  rw [← isPrefixOf_iff_mem_ids hd h.at_first h.at_second, h.part.1]
  exact Bool.false_ne_true

end Node

/-! ## 3. Actions -/

namespace State

open Node

variable {s : State α}

/-- A move has to name either a parent or the root level. -/
theorem isOk_goal {parent : Option NodeId} {atRoot : Bool} :
    (Goal.of parent atRoot).isOk ↔ parent.isSome ≠ atRoot := by
  cases parent <;> cases atRoot <;> simp [Goal.of, Except.isOk, Except.toBool]

/-- A move is accepted just when it is meaningful. -/
theorem isOk_move {parent : Option NodeId} {atRoot : Bool} {i : Nat} {node : Node α}
    (hd : s.treeIds.Nodup) :
    (s.move parent atRoot i node).isOk ↔ s.Meaningful (.move parent atRoot i node) := by
  rw [move, Meaningful, ← isOk_goal]
  cases hgoal : Goal.of parent atRoot with
  | error r => exact iff_of_false Bool.false_ne_true fun h => Bool.false_ne_true h.1
  | ok goal =>
    have hparent := Goal.of_eq_ok hgoal
    have hok : (Except.ok goal : Except Rejection Goal).isOk = true := rfl
    rw [ok_bind, and_iff_right hok]
    cases hroot : s.root with
    | none =>
      -- an empty tree has no node to go under
      rw [or_iff_left (fun h => h.1 rfl), and_iff_right rfl]
      cases parent <;> cases atRoot <;> cases hgoal
      · exact iff_of_true rfl rfl
      · exact iff_of_false Bool.false_ne_true Bool.false_ne_true
    | some root =>
      rw [treeIds_eq hroot] at hd ⊢
      rw [treeNodes_eq hroot, ← hparent, or_iff_right fun h => Option.some_ne_none root h.1,
        and_iff_right (Option.some_ne_none root)]
      show (s.moveWithin root goal i node).isOk ↔ _
      rw [moveWithin, isOk_bind_eq (by intro; rfl), isOk_moved hd]
      simp [eq_comm]

/-- Where there is a tree there is a slot, for a tree that is not empty has a leaf. -/
theorem isOk_insertInto (hs : s.Settled) {root node : Node α} (hroot : s.root = some root) :
    (s.insertInto root node).isOk ↔ ∀ id ∈ node.ids, id ∉ root.ids := by
  have hleaves : root.leaves ≠ [] := (leaves_ne_nil_iff root).mpr (hs.forked root hroot).bears
  obtain ⟨slot, hslot⟩ := exists_slot? hleaves s.config.maxChildren
  rw [insertInto, isOk_seq, isOk_checkFresh, hslot]
  exact and_iff_left rfl

/-- An insertion is accepted just when all its identifiers are new. -/
theorem isOk_insert (hs : s.Settled) {node : Node α} {magnified focused : Bool} :
    (s.insert node magnified focused).isOk ↔ ∀ id ∈ node.ids, id ∉ s.treeIds := by
  rw [insert]
  split
  · next hroot =>
    refine iff_of_true rfl fun id _ => ?_
    rw [treeIds, hroot]
    exact List.not_mem_nil
  · next root hroot =>
    rw [isOk_bind_eq (by intro; rfl), isOk_insertInto hs hroot, treeIds_eq hroot]

theorem mem_treeIds_iff {id : NodeId} :
    id ∈ s.treeIds ↔ ∃ root, s.root = some root ∧ root.contains id := by
  rw [treeIds]
  cases s.root with
  | none => simp
  | some root => simp

/-- A node can be deleted just when it is in the tree. -/
theorem isOk_delete {id : NodeId} : (s.delete id).isOk ↔ id ∈ s.treeIds := by
  rw [delete, isOk_rootOf_bind, mem_treeIds_iff]
  refine exists_congr fun root => and_congr_right fun _ => ?_
  rw [contains_iff]
  split
  · next hid => exact iff_of_true rfl (hid ▸ id_mem_ids root)
  · next hid =>
    have hupdate := @isSome_updateParent? _ id root fun p => p.dropChild id 0
    rw [and_iff_right (Ne.symm hid)] at hupdate
    rw [← hupdate]
    split
    · next htree => rw [htree]; exact iff_of_true rfl rfl
    · next htree => rw [htree]; exact iff_of_false Bool.false_ne_true Bool.false_ne_true

/-- A swap is accepted just when it is meaningful. -/
theorem isOk_swap (hd : s.treeIds.Nodup) {first second : NodeId} :
    (s.swap first second).isOk ↔ s.Meaningful (.swap first second) := by
  constructor
  · intro h
    cases hswap : s.swap first second with
    | error r => rw [hswap] at h; cases h
    | ok r =>
      obtain ⟨root, p, q, a, b, hroot, hp, hq, hapart, -⟩ := swap_eq_ok_iff.mp hswap
      rw [treeIds_eq hroot] at hd
      obtain ⟨m, hm, rfl⟩ := at?_of_path? hp
      obtain ⟨n, hn, rfl⟩ := at?_of_path? hq
      obtain rfl := Option.some.inj (hm.symm.trans hapart.at_first)
      obtain rfl := Option.some.inj (hn.symm.trans hapart.at_second)
      have hbelow := hapart.not_mem_ids hd
      refine ⟨fun hid => hbelow (hid ▸ id_mem_ids m), ?_⟩
      rw [treeNodes_eq hroot]
      exact ⟨m, mem_nodes_of_at? hm, n, mem_nodes_of_at? hn, rfl, rfl, hbelow,
        hapart.symm.not_mem_ids hd⟩
  · rintro ⟨-, a, ha, b, hb, rfl, rfl, hab, hba⟩
    cases hroot : s.root with
    | none =>
      rw [treeNodes, hroot] at ha
      cases ha
    | some root =>
      rw [treeIds_eq hroot] at hd
      rw [treeNodes_eq hroot] at ha hb
      obtain ⟨r, hr, -⟩ := swap_of_parts hd hroot ha hb hab hba
      rw [hr]
      rfl

theorem isOk_focus {id : NodeId} : (s.focus id).isOk ↔ id ∈ s.treeIds := by
  rw [focus, isOk_rootOf_bind, mem_treeIds_iff]
  refine exists_congr fun root => and_congr_right fun _ => isOk_guard ?_
  split <;> rfl

theorem isOk_toggleMagnified {id : NodeId} : (s.toggleMagnified id).isOk ↔ id ∈ s.treeIds := by
  rw [toggleMagnified, isOk_rootOf_bind, mem_treeIds_iff]
  refine exists_congr fun root => and_congr_right fun _ => isOk_guard ?_
  split <;> rfl

/-- A resize is accepted just when it is meaningful. -/
theorem isOk_resize {shares : List Resize} :
    (s.resize shares).isOk ↔ s.Meaningful (.resize shares) := by
  rw [resize, isOk_rootOf_bind, Meaningful]
  cases hroot : s.root with
  | none => exact iff_of_false nofun fun h => h.1 rfl
  | some root =>
    rw [treeIds_eq hroot, and_iff_right (Option.some_ne_none root)]
    simp only [Option.some.injEq, exists_eq_left', ← isOk_checkResize, ← isOk_forM_checkResize]
    rw [isOk_seq, isOk_pure, and_iff_left rfl]

/-- A drop is accepted just when it is meaningful. -/
theorem isOk_stageDrop (hd : s.treeIds.Nodup) {target moved : NodeId} {zone : DropZone} :
    (s.stageDrop target moved zone).isOk ↔ s.Meaningful (.stageDrop target moved zone) := by
  rw [stageDrop, isOk_rootOf_bind, Meaningful]
  cases hroot : s.root with
  | none =>
    rw [treeNodes, hroot]
    exact iff_of_false nofun fun h => by simp at h
  | some root =>
    rw [treeIds_eq hroot] at hd
    simp only [Option.some.injEq, exists_eq_left', treeNodes_eq hroot, ← isOk_resolveDrop hd]
    rw [isOk_bind_eq (by intro; rfl)]

/-- To commit performs what is staged, which fits the tree. -/
theorem isOk_commit (hs : s.StagedFits) (hd : s.treeIds.Nodup) :
    ((s.taken .commitStaged).perform (s.performed .commitStaged)).isOk ↔ s.staged ≠ none := by
  rw [performed]
  cases hstaged : s.staged with
  | none => exact iff_of_false Bool.false_ne_true (not_not_intro rfl)
  | some a =>
    obtain ⟨root, target, moved, zone, hroot, hdrop⟩ := hs a hstaged
    rw [treeIds_eq hroot] at hd
    obtain ⟨r, hr, -⟩ := perform_of_fits (s := s.taken .commitStaged) hd hroot
      (resolveDrop_fits hd hdrop)
    rw [Option.getD_some, hr]
    exact iff_of_true rfl (Option.some_ne_none a)

end State

/-- In a reachable state with distinct identifiers an action is accepted if and only if it makes
sense for the tree that is there. -/
theorem accepted_iff_meaningful (s : State α) (a : Action α) (hs : Reachable s)
    (hd : s.treeIds.Nodup) : (s.step a).2 = none ↔ s.Meaningful a := by
  rw [step_accepted_iff]
  cases a with
  | move parent atRoot i node => exact (isOk_map (s.move parent atRoot i node)).trans (isOk_move hd)
  | insert node magnified focused =>
    exact (isOk_map (s.insert node magnified focused)).trans (isOk_insert hs.settled)
  | delete id => exact (isOk_map (s.delete id)).trans isOk_delete
  | swap first second => exact (isOk_map (s.swap first second)).trans (isOk_swap hd)
  | resize shares => exact (isOk_map (s.resize shares)).trans isOk_resize
  | focus id => exact isOk_focus
  | toggleMagnified id => exact isOk_toggleMagnified
  | stageDrop target moved zone => exact isOk_stageDrop hd
  | commitStaged => exact isOk_commit hs.stagedFits hd
  | clearStaged => exact iff_of_true rfl trivial

/-- A pane can be dropped onto a side of the column that it is in, but not onto its middle. -/
theorem pane_drops_beside_its_column :
    ∃ s : State Unit, Reachable s ∧ s.treeIds.Nodup ∧
      (s.step (.stageDrop ⟨3⟩ ⟨4⟩ .left)).2 = none ∧
      (s.step (.stageDrop ⟨3⟩ ⟨4⟩ .center)).2 ≠ none := by
  let pane (n : UInt64) (orientation : Orientation) : Node Unit :=
    .leaf { id := ⟨n⟩, orientation, size := 50 } ()
  let column : Node Unit :=
    .branch { id := ⟨3⟩, orientation := .column, size := 50 } [pane 4 .row, pane 5 .row]
  let root : Node Unit := .branch { id := ⟨1⟩ } [pane 2 .column, column]
  let s := State.ofRoot root
  have hs : Reachable s := .ofRoot root
  have hroot : s.root = some root := (Node.balance?_eq_self_iff root).mpr (by decide +kernel)
  have hd : s.treeIds.Nodup := by decide +kernel
  have hcolumn : column ∈ s.treeNodes := by simp [treeNodes_eq hroot, root, Node.self_mem_nodes]
  have hpane : pane 4 .row ∈ s.treeNodes := by simp [treeNodes_eq hroot, root, column, pane]
  refine ⟨s, hs, hd, (accepted_iff_meaningful s _ hs hd).mpr ?_, fun haccepted => ?_⟩
  · exact ⟨by decide, column, hcolumn, pane 4 .row, hpane, rfl, rfl, by decide, nofun⟩
  · obtain ⟨-, t, ht, m, -, hid, -, -, hout⟩ := (accepted_iff_meaningful s _ hs hd).mp haccepted
    rw [treeNodes_eq hroot] at ht hcolumn
    rw [treeIds_eq hroot] at hd
    obtain rfl := Node.eq_of_id_eq hd ht hcolumn hid
    exact hout rfl (by decide)

end Tiling
