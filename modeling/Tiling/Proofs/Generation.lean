import Tiling.Proofs.Step
import Mathlib.Algebra.Group.Nat.Defs

/-!
# The generation tells whether anything has changed

Each accepted edit, each toggle of the magnification and each change of the focus raises the
generation by one. Any other request keeps it, and with it all that an observer sees. So along a run
two states of one generation look alike, as long as the counter has not reached its greatest value.
-/

namespace Tiling

variable {α : Type}

namespace State

/-- Whether two states show the same panes in the same way, and mint the same identifiers. -/
structure LooksLike (t s : State α) : Prop where
  root_eq : t.root = s.root
  leaves_eq : t.leaves = s.leaves
  focused_eq : t.focused = s.focused
  magnified_eq : t.magnified = s.magnified
  ids_eq : t.ids = s.ids

theorem LooksLike.trans {s t u : State α} (hut : u.LooksLike t) (hts : t.LooksLike s) :
    u.LooksLike s :=
  ⟨hut.root_eq.trans hts.root_eq, hut.leaves_eq.trans hts.leaves_eq,
    hut.focused_eq.trans hts.focused_eq, hut.magnified_eq.trans hts.magnified_eq,
    hut.ids_eq.trans hts.ids_eq⟩

def changesBy (s : State α) : Action α → Bool
  -- To set the focus where it is already is no change.
  | .focus id => s.focused ≠ some id
  | .toggleMagnified _ => true
  | b => b.isEdit

/-! ## 1. One action -/

theorem changesBy_of_isEdit (s : State α) {b : Action α} (hb : b.isEdit) :
    s.changesBy b = true := by
  cases b with
  | focus | toggleMagnified => cases hb
  | _ => exact hb

/-- An action either counts as a change and raises the generation by one, or leaves both it and the
looks of the state. -/
theorem perform_generation {s t : State α} {b : Action α} (h : s.perform b = .ok t) :
    s.changesBy b = true ∧ t.generation = s.generation + 1 ∨
      s.changesBy b = false ∧ t.generation = s.generation ∧ t.LooksLike s := by
  by_cases hb : b.isEdit
  · obtain ⟨r, hr, rfl⟩ := perform_edit hb h
    refine .inl ⟨changesBy_of_isEdit s hb, ?_⟩
    -- the edit leaves the counter alone, and to settle the state raises it
    rw [edit_writes hr]
    rfl
  · cases b with
    | move | insert | delete | swap | resize => exact absurd rfl hb
    | stageDrop target moved zone =>
      obtain ⟨root, staged, -, -, rfl⟩ := stageDrop_eq_ok h
      exact .inr ⟨rfl, rfl, rfl, rfl, rfl, rfl, rfl⟩
    | clearStaged =>
      cases h
      exact .inr ⟨rfl, rfl, rfl, rfl, rfl, rfl, rfl⟩
    | commitStaged => cases h
    | focus id =>
      obtain ⟨-, ⟨hsame, rfl⟩ | ⟨hother, rfl⟩⟩ := focus_eq_ok h
      · exact .inr ⟨by simp [changesBy, hsame], rfl, rfl, rfl, rfl, rfl, rfl⟩
      · exact .inl ⟨by simp [changesBy, hother], rfl⟩
    | toggleMagnified id =>
      obtain ⟨-, rfl | rfl⟩ := toggleMagnified_eq_ok h <;> exact .inl ⟨rfl, rfl⟩

theorem looksLike_taken (s : State α) (a : Action α) : (s.taken a).LooksLike s := by
  cases a <;> exact ⟨rfl, rfl, rfl, rfl, rfl⟩

/-- A request is a change, or nothing that shows comes of it. -/
theorem step_generation (s : State α) (a : Action α) :
    (s.step a).1.generation = s.generation + 1 ∨
      (s.step a).1.generation = s.generation ∧ (s.step a).1.LooksLike s ∧
        ((s.step a).2 = none → s.changesBy (s.performed a) = false) := by
  have htaken := s.looksLike_taken a
  have hgen : (s.taken a).generation = s.generation := (s.taken_keeps a).2.2.2.2
  have hchanges : (s.taken a).changesBy (s.performed a) = s.changesBy (s.performed a) := by
    cases hb : s.performed a <;> simp [changesBy, htaken.focused_eq]
  by_cases ha : (s.step a).2 = none
  · rcases perform_generation (step_accepted ha) with ⟨-, hcount⟩ | ⟨hno, hcount, hlooks⟩
    · exact .inl (hcount.trans (congrArg (· + 1) hgen))
    · exact .inr ⟨hcount.trans hgen, hlooks.trans htaken, fun _ => hchanges ▸ hno⟩
  · rw [step_rejected ha]
    exact .inr ⟨hgen, htaken, fun hnone => absurd hnone ha⟩

/-! ## 2. Runs -/

def applyAll (s : State α) (actions : List (Action α)) : State α :=
  actions.foldl apply s

def CountsOn (s : State α) : List (Action α) → Prop
  -- No action finds the counter at its greatest value, so it never wraps round.
  | [] => True
  | a :: actions => s.generation.toNat < 2 ^ 64 - 1 ∧ (s.apply a).CountsOn actions

theorem countsOn_append {s : State α} {first second : List (Action α)} :
    s.CountsOn (first ++ second) ↔ s.CountsOn first ∧ (s.applyAll first).CountsOn second := by
  induction first generalizing s with
  | nil => exact (and_iff_right trivial).symm
  | cons a first ih =>
    rw [List.cons_append, CountsOn, CountsOn, ih, and_assoc]
    rfl

theorem toNat_generation_succ {s : State α} (h : s.generation.toNat < 2 ^ 64 - 1) :
    (s.generation + 1).toNat = s.generation.toNat + 1 := by
  rw [UInt64.toNat_add]
  change (s.generation.toNat + 1) % 2 ^ 64 = _
  omega

/-- One action: either the generation is one higher, or it is the same and so is all that shows. -/
theorem step_counts {s : State α} (h : s.generation.toNat < 2 ^ 64 - 1) (a : Action α) :
    (s.step a).1.generation.toNat = s.generation.toNat + 1 ∨
      (s.step a).1.generation = s.generation ∧ (s.step a).1.LooksLike s ∧
        ((s.step a).2 = none → s.changesBy (s.performed a) = false) :=
  (s.step_generation a).imp_left fun hcount => by rw [hcount, toNat_generation_succ h]

/-- Over a run that the counter can hold, the generation never falls. -/
theorem generation_le_applyAll {s : State α} {actions : List (Action α)} (h : s.CountsOn actions) :
    s.generation ≤ (s.applyAll actions).generation := by
  induction actions generalizing s with
  | nil => exact UInt64.le_refl _
  | cons a actions ih =>
    refine UInt64.le_trans (UInt64.le_iff_toNat_le.mpr ?_) (ih h.2)
    rcases step_counts h.1 a with hcount | ⟨hsame, -⟩
    · show s.generation.toNat ≤ (s.step a).1.generation.toNat
      omega
    · exact Nat.le_of_eq (congrArg UInt64.toNat hsame).symm

/-- A run that ends at the generation it began with ends in a state that looks the same. -/
theorem applyAll_looksLike {s : State α} {actions : List (Action α)} (h : s.CountsOn actions)
    (hgen : (s.applyAll actions).generation = s.generation) : (s.applyAll actions).LooksLike s := by
  induction actions generalizing s with
  | nil => exact ⟨rfl, rfl, rfl, rfl, rfl⟩
  | cons a actions ih =>
    have hrest := UInt64.le_iff_toNat_le.mp (generation_le_applyAll h.2)
    change ((s.apply a).applyAll actions).generation = _ at hgen
    rw [hgen] at hrest
    rcases step_counts h.1 a with hcount | ⟨hsame, hlooks, -⟩
    · -- a counter that has risen does not come back
      change (s.step a).1.generation.toNat ≤ _ at hrest
      omega
    · exact (ih h.2 (hgen.trans hsame.symm)).trans hlooks

end State

/-- Below its greatest value the generation keeps or rises by one with each action. Where it keeps,
nothing that shows has changed, and every accepted change raises it. So along a run it never falls,
and two states of the run with one generation look alike. -/
theorem generation_tells_changes :
    (∀ (s : State α) (a : Action α), s.generation.toNat < 2 ^ 64 - 1 →
      ((s.step a).1.generation = s.generation ∨
        (s.step a).1.generation.toNat = s.generation.toNat + 1) ∧
      ((s.step a).1.generation = s.generation → (s.step a).1.LooksLike s) ∧
      ((s.step a).2 = none → s.changesBy (s.performed a) →
        (s.step a).1.generation.toNat = s.generation.toNat + 1)) ∧
    ∀ (s : State α) (first second : List (Action α)), s.CountsOn (first ++ second) →
      (s.applyAll first).generation ≤ (s.applyAll (first ++ second)).generation ∧
      ((s.applyAll (first ++ second)).generation = (s.applyAll first).generation →
        (s.applyAll (first ++ second)).LooksLike (s.applyAll first)) := by
  refine ⟨fun s a hbound => ?_, fun s first second hcounts => ?_⟩
  · rcases State.step_counts hbound a with hcount | ⟨hsame, hlooks, hno⟩
    · refine ⟨.inr hcount, fun hsame => ?_, fun _ _ => hcount⟩
      rw [hsame] at hcount
      omega
    · refine ⟨.inl hsame, fun _ => hlooks, fun haccepted hchanges => ?_⟩
      rw [hno haccepted] at hchanges
      cases hchanges
  · have hafter := (State.countsOn_append.mp hcounts).2
    have happly : s.applyAll (first ++ second) = (s.applyAll first).applyAll second :=
      List.foldl_append
    rw [happly]
    exact ⟨State.generation_le_applyAll hafter, State.applyAll_looksLike hafter⟩

/-- A staged deletion is committed, which counts; then the focus is set to where it has moved, and a
deletion is rejected. -/
theorem commit_counts_and_refocus_does_not :
    ∃ (s : State Unit) (second : List (Action Unit)), s.staged = some (.delete ⟨2⟩) ∧
      second = [.focus ⟨3⟩, .delete ⟨2⟩] ∧
      (s.step .commitStaged).1.generation.toNat = s.generation.toNat + 1 ∧
      (s.applyAll (.commitStaged :: second)).LooksLike (s.applyAll [.commitStaged]) := by
  let pane (n : UInt64) : Node Unit := .leaf { id := ⟨n⟩ } ()
  let s : State Unit :=
    { root := some (.branch { id := ⟨1⟩ } [pane 2, pane 3])
      focused := some ⟨2⟩
      staged := some (.delete ⟨2⟩)
      generation := 41 }
  have htells := generation_tells_changes (α := Unit)
  have hcounts : s.CountsOn ([.commitStaged] ++ [.focus ⟨3⟩, .delete ⟨2⟩]) :=
    ⟨by decide, by decide, by decide, trivial⟩
  refine ⟨s, _, rfl, rfl, (htells.1 s .commitStaged (by decide)).2.2 rfl rfl, ?_⟩
  exact (htells.2 s [.commitStaged] [.focus ⟨3⟩, .delete ⟨2⟩] hcounts).2 rfl

end Tiling
