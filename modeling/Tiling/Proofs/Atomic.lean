import Tiling.Proofs.Edited
import Tiling.State.InPlace

/-!
# Rejected actions change nothing

Work in place keeps what was written before a rejection. All rejections but one come before the
first write; the remaining one, a parent that is missing when the graft is made, is ruled out by the
checks. So to perform an action in place is to perform it whole or not at all.
-/

namespace Tiling

variable {α : Type}

namespace InPlace

def whole (s : State α) : Except Rejection (State α) → EStateM.Result Rejection (State α) Unit
  | .ok t => .ok () t
  | .error r => .error r s

/-! ## 1. Checks before writes -/

theorem bind_of_ok {β γ : Type} {x : InPlace α β} {f : β → InPlace α γ} {s t : State α} {b : β}
    (h : x s = .ok b t) : (x >>= f) s = f b t := by
  simp only [bind, EStateM.bind, h]

theorem bind_of_error {β γ : Type} {x : InPlace α β} {f : β → InPlace α γ} {s t : State α}
    {r : Rejection} (h : x s = .error r t) : (x >>= f) s = .error r t := by
  simp only [bind, EStateM.bind, h]

/-- A failed check leaves the state as it is, and so does what follows on a passed one. -/
theorem check_bind {β : Type} {e : Except Rejection β} {f : β → InPlace α Unit}
    {g : β → Except Rejection (State α)} {s : State α}
    (h : ∀ b, e = .ok b → f b s = whole s (g b)) : (check e >>= f) s = whole s (e >>= g) := by
  cases e with
  | ok b => exact h b rfl
  | error r => rfl

theorem tree_bind {f : Node α → InPlace α Unit} {g : Node α → Except Rejection (State α)}
    {s : State α} (h : ∀ root, s.root = some root → f root s = whole s (g root)) :
    (tree >>= f) s = whole s (s.rootOf >>= g) := by
  show (check s.rootOf >>= f) s = _
  exact check_bind fun root hroot => h root (State.rootOf_eq_ok hroot)

theorem tree_of_root {s : State α} {root : Node α} (hroot : s.root = some root) :
    tree s = .ok root s := by
  show check s.rootOf s = _
  rw [State.rootOf, hroot]
  rfl

/-- Writes that nothing can reject complete an edit. -/
theorem bind_writes {s : State α} {x y : InPlace α Unit} {e : Except Rejection (State α)}
    {f : State α → State α} (hx : x s = whole s e) (hy : ∀ t, y t = .ok () (f t)) :
    (x >>= fun _ => y) s = whole s (e.map f) := by
  cases e with
  | ok t => exact (bind_of_ok hx).trans (hy t)
  | error r => exact bind_of_error hx

/-! ## 2. The edits -/

/-- A goal that has been checked is found, so that the graft cannot fail half way. -/
theorem place_eq {s : State α} {root : Node α} {goal : Goal} (hroot : s.root = some root)
    (h : root.checkGoal goal = .ok ()) (i : Nat) (child : Node α) :
    place goal i child s = .ok () { s with
      root := some (root.place goal i child s.ids).1
      ids := (root.place goal i child s.ids).2 } := by
  rw [place, bind_of_ok (tree_of_root hroot)]
  cases goal with
  | besideRoot => rfl
  | under parent =>
    rw [Node.checkGoal] at h
    split at h
    · next hmem =>
      -- the parent was looked up before, and no write has touched the tree since
      obtain ⟨target, htarget⟩ := Option.isSome_iff_exists.mp hmem
      simp only [Node.place, htarget]
      cases target <;> rfl
    · cases h

/-- A move field by field is the move at once. -/
theorem moveWithin_eq {s : State α} {root : Node α} (hroot : s.root = some root) (goal : Goal)
    (i : Nat) (node : Node α) :
    moveWithin root goal i node s = whole s (s.moveWithin root goal i node) := by
  refine check_bind fun child hmoved => ?_
  have hplace := place_eq (s := { s with ids := s.ids.reserveAll child.ids }) hroot
    (Node.moved_eq_ok hmoved).1 i child
  exact bind_of_ok hplace

theorem move_eq (s : State α) (parent : Option NodeId) (atRoot : Bool) (i : Nat) (node : Node α) :
    move parent atRoot i node s = whole s (s.move parent atRoot i node) := by
  refine check_bind fun goal _ => ?_
  rw [bind_of_ok (x := get) rfl]
  cases hroot : s.root with
  | some root => exact moveWithin_eq hroot goal i node
  | none => cases goal <;> rfl

theorem insertInto_eq {s : State α} {root : Node α} (hroot : s.root = some root) (node : Node α) :
    insertInto root node s = whole s (s.insertInto root node) := by
  refine check_bind fun _ _ => ?_
  rw [bind_of_ok (x := get) rfl]
  cases hslot : root.slot? s.config.maxChildren with
  | none => rfl
  | some slot =>
    -- a slot is one of the tree's own nodes, so the graft finds it
    have hgoal : root.checkGoal (.under slot.node) = .ok () := by
      rw [Node.checkGoal, if_pos (Node.contains_iff.mpr (Node.mem_ids_of_slot? hslot))]
    exact place_eq (s := { s with ids := s.ids.reserveAll node.ids }) hroot hgoal slot.index node

theorem insert_eq (s : State α) (node : Node α) (magnified focused : Bool) :
    insert node magnified focused s = whole s (s.insert node magnified focused) := by
  have hmark : ∀ (shown : NodeId) (t : State α), mark shown magnified focused t = .ok () { t with
      focused := if focused then some shown else t.focused
      magnified := if magnified then some shown else t.magnified } := by
    intro shown t
    cases magnified <;> cases focused <;> rfl
  rw [insert, bind_of_ok (x := get) rfl]
  cases hroot : s.root with
  | none =>
    rw [State.insert]
    simp only [hroot]
    exact hmark _ (s.plant node)
  | some root =>
    rw [State.insert]
    simp only [hroot]
    refine (bind_writes (insertInto_eq hroot node) (hmark _)).trans ?_
    cases s.insertInto root node <;> rfl

theorem delete_eq (s : State α) (id : NodeId) : delete id s = whole s (s.delete id) := by
  refine tree_bind fun root _ => ?_
  split
  · rfl
  · cases root.updateParent? id fun parent => parent.dropChild id 0 <;> rfl

theorem swap_eq (s : State α) (first second : NodeId) :
    swap first second s = whole s (s.swap first second) := by
  refine tree_bind fun root hroot => ?_
  split
  · rfl
  split
  · rfl
  cases root.path? first with
  | none => rfl
  | some p =>
    cases root.path? second with
    | none => rfl
    | some q =>
      dsimp only
      split
      · rfl
      split
      · rfl
      match root.pairAt p q with
      | .ok (some (a, b)) => exact bind_of_ok (tree_of_root hroot)
      | .ok none => rfl
      | .error fault => rfl

/-- Checking all shares first writes nothing. -/
theorem forM_check (shares : List Resize) (root : Node α) (s : State α) :
    (shares.forM fun r => check (root.checkResize r)) s =
      match shares.forM root.checkResize with
      | .ok _ => .ok () s
      | .error r => .error r s := by
  induction shares with
  | nil => rfl
  | cons r shares ih =>
    show (check (root.checkResize r) >>= fun _ => shares.forM _) s =
      match root.checkResize r >>= fun _ => shares.forM root.checkResize with
      | .ok _ => .ok () s
      | .error r => .error r s
    cases root.checkResize r with
    | ok _ => exact ih
    | error r => rfl

/-- The shares are written one by one. -/
theorem forM_resizeOne (shares : List Resize) {s : State α} {root : Node α}
    (hroot : s.root = some root) :
    shares.forM resizeOne s = .ok () { s with root := some (shares.foldl Node.resized root) } := by
  induction shares generalizing s root with
  | nil =>
    rw [List.foldl_nil, ← hroot]
    rfl
  | cons r shares ih =>
    have hone : resizeOne r s = .ok () { s with root := some (root.resized r) } :=
      bind_of_ok (tree_of_root hroot)
    exact (bind_of_ok hone).trans (ih rfl)

/-- All sizes are checked before the first one is written. -/
theorem resize_eq (s : State α) (shares : List Resize) :
    resize shares s = whole s (s.resize shares) := by
  refine tree_bind fun root hroot => ?_
  have hchecks := forM_check shares root s
  cases h : shares.forM root.checkResize with
  | ok _ =>
    rw [h] at hchecks
    exact (bind_of_ok hchecks).trans (forM_resizeOne shares hroot)
  | error r =>
    rw [h] at hchecks
    exact bind_of_error hchecks

theorem focus_eq (s : State α) (id : NodeId) : focus id s = whole s (s.focus id) := by
  refine tree_bind fun root _ => ?_
  split
  · rfl
  rw [bind_of_ok (x := get) rfl]
  split <;> rfl

theorem toggleMagnified_eq (s : State α) (id : NodeId) :
    toggleMagnified id s = whole s (s.toggleMagnified id) := by
  refine tree_bind fun root _ => ?_
  split
  · rfl
  rw [bind_of_ok (x := get) rfl]
  split <;> rfl

/-! ## 3. Actions -/

/-- Settling cannot fail, so an edit that is done at once is settled at once. -/
theorem settled {s : State α} {x : InPlace α Unit} {e : Except Rejection (State α)}
    (h : x s = whole s e) : (x >>= fun _ => settle) s = whole s (e.map State.settle) :=
  bind_writes h fun _ => rfl

/-- To perform an action field by field is to perform it at once. -/
theorem perform_eq (s : State α) (a : Action α) : perform a s = whole s (s.perform a) := by
  cases a with
  | stageDrop target moved zone => exact tree_bind fun _ _ => check_bind fun _ _ => rfl
  | clearStaged => rfl
  | commitStaged => rfl
  | move parent atRoot i node => exact settled (move_eq s parent atRoot i node)
  | insert node magnified focused => exact settled (insert_eq s node magnified focused)
  | delete id => exact settled (delete_eq s id)
  | swap first second => exact settled (swap_eq s first second)
  | focus id => exact focus_eq s id
  | toggleMagnified id => exact toggleMagnified_eq s id
  | resize shares => exact settled (resize_eq s shares)

end InPlace

namespace State

theorem attempt_eq_answer (s : State α) (a : Action α) :
    s.attempt a = InPlace.answer (InPlace.perform a s) := by
  rw [InPlace.perform_eq, attempt]
  cases s.perform a <;> rfl

/-- Writing step by step and computing the new state come to the same. -/
theorem stepInPlace_eq (s : State α) (a : Action α) : s.stepInPlace a = s.step a := by
  cases a with
  | commitStaged =>
    rw [stepInPlace, step, InPlace.step, InPlace.bind_of_ok (x := get) rfl]
    cases s.staged with
    | none => rfl
    | some b => exact (attempt_eq_answer _ b).symm
  | _ => simp only [stepInPlace, InPlace.step, step, attempt_eq_answer]

end State

/-- Whatever a state is like, an action that is rejected while it works in place leaves the state as
it was. The one exception is a commit that finds a staged action: that is used up, and nothing else
changes. -/
theorem rejected_action_changes_nothing (s t : State α) (a : Action α) (r : Rejection)
    (h : s.stepInPlace a = (t, some r)) :
    s.step a = (t, some r) ∧
      (a = .commitStaged ∧ s.staged.isSome → t = { s with staged := none }) ∧
      (¬(a = .commitStaged ∧ s.staged.isSome) → t = s) := by
  rw [State.stepInPlace_eq] at h
  have hrejected : (s.step a).2 ≠ none := by
    rw [h]
    exact Option.some_ne_none r
  have htaken : t = s.taken a := by
    rw [← State.step_rejected hrejected, h]
  refine ⟨h, fun hcommit => ?_, fun hother => ?_⟩
  · rw [htaken, hcommit.1, State.taken]
  · rw [htaken]
    cases a with
    | commitStaged =>
      -- nothing was staged, so nothing is used up
      have hnone : s.staged = none := by simpa using hother
      rw [State.taken, ← hnone]
    | _ => rfl

/-- The tree repeats an identifier, and the staged move names a parent that is gone. -/
theorem stale_move_is_used_up :
    ∃ s t : State Unit, s.stepInPlace .commitStaged = (t, some (.notFound ⟨9⟩)) ∧
      s.staged.isSome ∧ t = { s with staged := none } := by
  let pane (n : UInt64) : Node Unit := .leaf { id := ⟨n⟩ } ()
  let s : State Unit :=
    { root := some (.branch { id := ⟨1⟩ } [pane 2, pane 2])
      staged := some (.move (some ⟨9⟩) false 0 (pane 2)) }
  have hstep : s.stepInPlace .commitStaged =
      ({ s with staged := none }, some (.notFound ⟨9⟩)) := rfl
  have hatomic := rejected_action_changes_nothing _ _ _ _ hstep
  exact ⟨s, _, hstep, rfl, hatomic.2.1 ⟨rfl, rfl⟩⟩

end Tiling
