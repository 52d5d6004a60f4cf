import Tiling.Proofs.NormalForm
import Tiling.Proofs.Reachable

/-!
# Settled states

A settled state holds a tree in normal form and the leaves of that tree. Each accepted edit settles
the state, whatever the state was like before, and no other call unsettles it.
-/

namespace Tiling

variable {α : Type}

namespace State

structure Settled (s : State α) : Prop where
  normalForm : ∀ root, s.root = some root → root.NormalForm
  leaves_eq : s.leaves = leavesOf s.root
  leaves_eq_nil : s.leaves = [] ↔ s.root = none

theorem Settled.leaves_of_root {s : State α} (h : s.Settled) {root : Node α}
    (hroot : s.root = some root) : s.leaves = root.leaves := by
  rw [h.leaves_eq, hroot]
  rfl

theorem leavesOf_eq_nil {root : Option (Node α)} (h : ∀ n, root = some n → n.NormalForm) :
    leavesOf root = [] ↔ root = none := by
  cases root with
  | none => exact iff_of_true rfl rfl
  | some n =>
    refine iff_of_false ?_ (Option.some_ne_none n)
    exact (Node.leaves_ne_nil_iff n).mpr (h n rfl).forked.bears

theorem settled_of_balanced {s : State α} (root : Option (Node α))
    (hroot : s.root = root.bind Node.balance?) (hleaves : s.leaves = leavesOf s.root) :
    s.Settled := by
  have hnormal : ∀ n, s.root = some n → n.NormalForm := by
    intro n hn
    rw [hroot] at hn
    obtain ⟨m, -, hm⟩ := Option.bind_eq_some_iff.mp hn
    exact Node.balance?_normalForm hm
  exact ⟨hnormal, hleaves, by rw [hleaves]; exact leavesOf_eq_nil hnormal⟩

/-- What settling returns is settled, whatever the state was. -/
theorem settle_settled (s : State α) : s.settle.Settled :=
  settled_of_balanced s.root rfl rfl

theorem empty_settled : (empty : State α).Settled :=
  settled_of_balanced none rfl rfl

theorem ofRoot_settled (root : Node α) : (ofRoot root).Settled :=
  settled_of_balanced (some root) rfl rfl

theorem Settled.congr {s t : State α} (hs : s.Settled) (hroot : t.root = s.root)
    (hleaves : t.leaves = s.leaves) : t.Settled := by
  refine ⟨?_, ?_, ?_⟩
  · rw [hroot]
    exact hs.normalForm
  · rw [hleaves, hroot]
    exact hs.leaves_eq
  · rw [hleaves, hroot]
    exact hs.leaves_eq_nil

theorem Settled.forked {s : State α} (hs : s.Settled) :
    ∀ root, s.root = some root → root.Forked :=
  fun root hroot => (hs.normalForm root hroot).forked

theorem Settled.taken {s : State α} (hs : s.Settled) (a : Action α) : (s.taken a).Settled :=
  hs.congr (s.taken_keeps a).1 (s.taken_keeps a).2.1

/-- An action that succeeds leaves a settled state settled. -/
theorem Settled.perform {s t : State α} {b : Action α} (hs : s.Settled)
    (h : s.perform b = .ok t) : t.Settled := by
  -- an edit settles the state it ends with, and any other action keeps the tree and its leaves
  by_cases hb : b.isEdit
  · obtain ⟨r, -, rfl⟩ := perform_edit hb h
    exact settle_settled r
  · obtain ⟨⟨hroot, hleaves, -⟩, -⟩ := perform_other (Bool.eq_false_iff.mpr hb) h
    exact hs.congr hroot hleaves

theorem Settled.call {s : State α} (hs : s.Settled) (c : Call α) : (s.call c).Settled :=
  call_invariant (fun _ _ _ hs h => hs.perform h) (fun _ hs => hs.congr rfl rfl)
    (fun _ hs => hs.congr rfl rfl) (fun _ _ hs => hs.congr rfl rfl) hs c

end State

/-- Every reachable state is settled. -/
theorem Reachable.settled {s : State α} (h : Reachable s) : s.Settled := by
  induction h with
  | empty => exact State.empty_settled
  | ofRoot root => exact State.ofRoot_settled root
  | call c _ ih => exact ih.call c

/-- An accepted edit, sent by the host or staged before, leaves every state settled and with nothing
staged. So all reachable states are settled. -/
theorem edit_settles_and_reachable_settled :
    (∀ (s : State α) (a : Action α), (s.performed a).isEdit → (s.step a).2 = none →
      (s.step a).1.Settled ∧ (s.step a).1.staged = none) ∧
    ∀ s : State α, Reachable s → s.Settled := by
  refine ⟨?_, fun s hs => hs.settled⟩
  intro s a hb ha
  obtain ⟨r, -, hr⟩ := State.perform_edit hb (State.step_accepted ha)
  rw [← hr]
  exact ⟨State.settle_settled r, rfl⟩

/-- A state with an empty branch and without its leaves settles when it commits a deletion. -/
theorem stale_state_settles :
    ∃ (s : State Unit) (a : Action Unit), ¬s.Settled ∧ (s.step a).1.Settled ∧
      (s.step a).1.staged = none ∧ (State.empty : State Unit).Settled := by
  let root : Node Unit := .branch { id := ⟨1⟩ } [.branch { id := ⟨2⟩ } [], .leaf { id := ⟨3⟩ } ()]
  let s : State Unit := { root, staged := some (.delete ⟨2⟩) }
  have hsettles := edit_settles_and_reachable_settled (α := Unit)
  have haccepted : (s.step .commitStaged).2 = none := rfl
  have hstale : ¬s.Settled := by
    intro h
    have hleaves : s.leaves = [.leaf { id := ⟨3⟩ } ()] := h.leaves_eq
    cases hleaves
  obtain ⟨hsettled, hstaged⟩ := hsettles.1 s .commitStaged rfl haccepted
  exact ⟨s, .commitStaged, hstale, hsettled, hstaged, hsettles.2 _ .empty⟩

end Tiling
