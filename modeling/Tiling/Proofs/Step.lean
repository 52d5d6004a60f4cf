import Tiling.Proofs.Paths

/-!
# What a step does

A request comes down to one action that is performed from one state: a staged action is used up
before it is performed. An action that edits the tree ends by settling the edited state, and any
other action leaves the tree, its leaves and the supply of identifiers alone.
-/

namespace Tiling

variable {α : Type}

def Action.isEdit : Action α → Bool
  | .move .. | .insert .. | .delete .. | .swap .. | .resize .. => true
  | _ => false

namespace State

/-- The action that a request comes down to: to commit performs the staged action. -/
def performed (s : State α) : Action α → Action α
  | .commitStaged => s.staged.getD .commitStaged
  | a => a

def taken (s : State α) : Action α → State α
  -- To commit uses up the staged action.
  | .commitStaged => { s with staged := none }
  | _ => s

def edit (s : State α) : Action α → Except Rejection (State α)
  -- The tree is not balanced yet.
  | .move parent atRoot index node => s.move parent atRoot index node
  | .insert node magnified focused => s.insert node magnified focused
  | .delete id => s.delete id
  | .swap first second => s.swap first second
  | .resize shares => s.resize shares
  | _ => .ok s

/-! ## 1. Requests -/

/-- An attempt either performs the action or leaves the state as it was. -/
theorem attempt_fst (s : State α) (a : Action α) :
    (s.attempt a).2 = none ∧ s.perform a = .ok (s.attempt a).1 ∨
      (s.attempt a).2 ≠ none ∧ (s.attempt a).1 = s := by
  rw [attempt]
  cases h : s.perform a with
  | ok t => exact .inl ⟨rfl, rfl⟩
  | error r => exact .inr ⟨Option.some_ne_none r, rfl⟩

/-- Every step attempts the action it stands for, a commit with the staged one taken out. -/
theorem step_eq_attempt (s : State α) (a : Action α) :
    s.step a = (s.taken a).attempt (s.performed a) := by
  cases a with
  | commitStaged =>
    rw [step, taken, performed]
    cases hs : s.staged with
    | none =>
      -- there is nothing to use up
      rw [Option.getD_none]
      show (s, _) = ({ s with staged := none }, _)
      rw [← hs]
    | some b => rfl
  | _ => rfl

/-- What an accepted step performs. -/
theorem step_accepted {s : State α} {a : Action α} (h : (s.step a).2 = none) :
    (s.taken a).perform (s.performed a) = .ok (s.step a).1 := by
  rw [step_eq_attempt] at h ⊢
  rcases attempt_fst (s.taken a) (s.performed a) with ⟨-, hok⟩ | ⟨hne, -⟩
  · exact hok
  · exact absurd h hne

/-- A rejected request changes nothing, except that to commit uses up the staged action. -/
theorem step_rejected {s : State α} {a : Action α} (h : (s.step a).2 ≠ none) :
    (s.step a).1 = s.taken a := by
  rw [step_eq_attempt] at h ⊢
  rcases attempt_fst (s.taken a) (s.performed a) with ⟨hnone, -⟩ | ⟨-, heq⟩
  · exact absurd hnone h
  · exact heq

/-- The state that an action is performed from differs in the staged action alone. -/
theorem taken_keeps (s : State α) (a : Action α) :
    (s.taken a).root = s.root ∧ (s.taken a).leaves = s.leaves ∧ (s.taken a).ids = s.ids ∧
      (s.taken a).config = s.config ∧ (s.taken a).generation = s.generation := by
  cases a <;> exact ⟨rfl, rfl, rfl, rfl, rfl⟩

/-! ## 2. Edits and other actions -/

theorem map_eq_ok {ε β γ : Type} {f : β → γ} {x : Except ε β} {c : γ} (h : x.map f = .ok c) :
    ∃ b, x = .ok b ∧ f b = c := by
  cases x with
  | error e => cases h
  | ok b => exact ⟨b, rfl, Except.ok.inj h⟩

theorem bind_eq_ok {ε β γ : Type} {x : Except ε β} {f : β → Except ε γ} {c : γ}
    (h : x >>= f = .ok c) : ∃ b, x = .ok b ∧ f b = .ok c := by
  cases x with
  | error e => cases h
  | ok b => exact ⟨b, rfl, h⟩

theorem ok_bind {ε β γ : Type} (b : β) (f : β → Except ε γ) : Except.ok b >>= f = f b := rfl

/-- A structural action that succeeds is its edit, settled. -/
theorem perform_edit {s t : State α} {b : Action α} (hb : b.isEdit) (h : s.perform b = .ok t) :
    ∃ r, s.edit b = .ok r ∧ r.settle = t := by
  cases b with
  | move | insert | delete | swap | resize => exact map_eq_ok h
  | _ => cases hb

theorem step_of_edit {s r : State α} {a : Action α} (ha : a.isEdit) (h : s.edit a = .ok r) :
    s.step a = (r.settle, none) := by
  have hperform : s.perform a = .ok r.settle := by
    cases a with
    | move | insert | delete | swap | resize => exact congrArg (Except.map settle) h
    | _ => cases ha
  have hattempt : s.step a = s.attempt a := by
    cases a with
    | commitStaged => cases ha
    | _ => rfl
  rw [hattempt, attempt, hperform]

theorem rootOf_eq_ok {s : State α} {root : Node α} (h : s.rootOf = .ok root) :
    s.root = some root := by
  rw [rootOf] at h
  split at h
  · next heq => exact heq.trans (congrArg some (Except.ok.inj h))
  · cases h

/-- Staging a drop writes nothing but the staged action. -/
theorem stageDrop_eq_ok {s t : State α} {target moved : NodeId} {zone : DropZone}
    (h : s.stageDrop target moved zone = .ok t) :
    ∃ root staged, s.root = some root ∧ root.resolveDrop target moved zone = .ok staged ∧
      t = { s with staged } := by
  obtain ⟨root, hroot, h⟩ := bind_eq_ok h
  obtain ⟨staged, hdrop, h⟩ := bind_eq_ok h
  exact ⟨root, staged, rootOf_eq_ok hroot, hdrop, (Except.ok.inj h).symm⟩

/-- Focusing needs the node in the tree and writes nothing when it has the focus already. -/
theorem focus_eq_ok {s t : State α} {id : NodeId} (h : s.focus id = .ok t) :
    (∃ root, s.root = some root ∧ root.contains id) ∧
      (s.focused = some id ∧ t = s ∨
        s.focused ≠ some id ∧
          t = { s with focused := some id, generation := s.generation + 1 }) := by
  obtain ⟨root, hroot, h⟩ := bind_eq_ok h
  split at h
  · cases h
  · next hin =>
    refine ⟨⟨root, rootOf_eq_ok hroot, by simpa using hin⟩, ?_⟩
    split at h
    · next hsame => exact .inl ⟨hsame, (Except.ok.inj h).symm⟩
    · next hother => exact .inr ⟨hother, (Except.ok.inj h).symm⟩

theorem toggleMagnified_eq_ok {s t : State α} {id : NodeId} (h : s.toggleMagnified id = .ok t) :
    (∃ root, s.root = some root ∧ root.contains id) ∧
      (t = { s with magnified := none, generation := s.generation + 1 } ∨
        t = { s with
          magnified := some id, focused := some id, generation := s.generation + 1 }) := by
  obtain ⟨root, hroot, h⟩ := bind_eq_ok h
  split at h
  · cases h
  · next hin =>
    refine ⟨⟨root, rootOf_eq_ok hroot, by simpa using hin⟩, ?_⟩
    split at h
    · exact .inl (Except.ok.inj h).symm
    · exact .inr (Except.ok.inj h).symm

/-- A swap exchanges the nodes at two paths that part, and nothing else can stop it. -/
theorem swap_eq_ok_iff {s r : State α} {first second : NodeId} :
    s.swap first second = .ok r ↔ ∃ root p q a b, s.root = some root ∧
      root.path? first = some p ∧ root.path? second = some q ∧ root.Apart p q a b ∧
      r = { s with root := some (root.swapAt p q a b) } := by
  constructor
  · intro h
    obtain ⟨root, hroot, h⟩ := bind_eq_ok h
    split at h
    · cases h
    split at h
    · cases h
    split at h
    · cases h
    · cases h
    · next p q hp hq =>
      split at h
      · cases h
      · next hpq =>
        split at h
        · cases h
        · next hqp =>
          -- past all rejections there are two paths, and neither begins the other
          have hpart : Node.Part p q := ⟨Bool.eq_false_iff.mpr hpq, Bool.eq_false_iff.mpr hqp⟩
          obtain ⟨a, ha, -⟩ := Node.at?_of_path? hp
          obtain ⟨b, hb, -⟩ := Node.at?_of_path? hq
          rw [Node.pairAt_eq hpart ha hb] at h
          exact ⟨root, p, q, a, b, rootOf_eq_ok hroot, hp, hq, ⟨hpart, ha, hb⟩,
            (Except.ok.inj h).symm⟩
  · rintro ⟨root, p, q, a, b, hroot, hp, hq, hapart, rfl⟩
    have hrootOf : s.rootOf = .ok root := by rw [rootOf, hroot]
    have hne : first ≠ second := by
      rintro rfl
      rw [hp, Option.some.injEq] at hq
      exact hapart.part.ne hq
    -- the path to the top node begins every other one
    have htop : root.path? root.id = some [] := by cases root <;> exact if_pos rfl
    have hfirst : first ≠ root.id := by
      rintro rfl
      rw [hp, Option.some.injEq] at htop
      exact Node.not_part_nil q (htop ▸ hapart.part)
    have hsecond : second ≠ root.id := by
      rintro rfl
      rw [hq, Option.some.injEq] at htop
      exact Node.not_part_nil p (htop ▸ hapart.part.symm)
    have hinner : ¬(first = root.id || second = root.id) := by simp [hfirst, hsecond]
    rw [swap, hrootOf, ok_bind, if_neg hne, if_neg hinner, hp, hq]
    simp only [hapart.part.1, hapart.part.2,
      Node.pairAt_eq hapart.part hapart.at_first hapart.at_second]
    rfl

/-- An action that edits nothing keeps the tree, its leaves, the supply and the configuration. What
is staged after it was there before, or comes from a drop onto the tree. -/
theorem perform_other {s t : State α} {b : Action α} (hb : b.isEdit = false)
    (h : s.perform b = .ok t) :
    (t.root = s.root ∧ t.leaves = s.leaves ∧ t.ids = s.ids ∧ t.config = s.config) ∧
      (t.staged = none ∨ t.staged = s.staged ∨ ∃ root target moved zone, s.root = some root ∧
        root.resolveDrop target moved zone = .ok t.staged) := by
  cases b with
  | move | insert | delete | swap | resize => cases hb
  | stageDrop target moved zone =>
    obtain ⟨root, staged, hroot, hdrop, rfl⟩ := stageDrop_eq_ok h
    exact ⟨⟨rfl, rfl, rfl, rfl⟩, .inr (.inr ⟨root, target, moved, zone, hroot, hdrop⟩)⟩
  | clearStaged =>
    cases h
    exact ⟨⟨rfl, rfl, rfl, rfl⟩, .inl rfl⟩
  | commitStaged => cases h
  | focus id =>
    obtain ⟨-, ⟨-, rfl⟩ | ⟨-, rfl⟩⟩ := focus_eq_ok h <;>
      exact ⟨⟨rfl, rfl, rfl, rfl⟩, .inr (.inl rfl)⟩
  | toggleMagnified id =>
    obtain ⟨-, rfl | rfl⟩ := toggleMagnified_eq_ok h <;>
      exact ⟨⟨rfl, rfl, rfl, rfl⟩, .inr (.inl rfl)⟩

/-! ## 3. What an edit writes -/

def focusAsked (s : State α) : Action α → Option NodeId
  -- The tree that the edit is settled with may not have the node.
  | .insert node _ true => some (node.firstLeafId?.getD node.id)
  | _ => s.focused

def magnifiedAsked (s : State α) : Action α → Option NodeId
  | .insert node true _ => some (node.firstLeafId?.getD node.id)
  | _ => s.magnified

theorem move_writes {s r : State α} {parent : Option NodeId} {atRoot : Bool} {i : Nat}
    {node : Node α} (h : s.move parent atRoot i node = .ok r) :
    r = { s with root := r.root, ids := r.ids } := by
  obtain ⟨goal, -, h⟩ := bind_eq_ok h
  split at h
  · obtain ⟨child, -, h⟩ := bind_eq_ok h
    cases h
    rfl
  · cases h
    rfl
  · cases h

theorem insert_writes {s r : State α} {node : Node α} {magnified focused : Bool}
    (h : s.insert node magnified focused = .ok r) :
    r = { s with
      root := r.root, ids := r.ids
      focused := s.focusAsked (.insert node magnified focused)
      magnified := s.magnifiedAsked (.insert node magnified focused) } := by
  have hmarks : ∀ t : State α, t = { s with root := t.root, ids := t.ids } →
      { t with
        focused := if focused then some (node.firstLeafId?.getD node.id) else t.focused
        magnified := if magnified then some (node.firstLeafId?.getD node.id) else t.magnified } =
      { s with
        root := t.root, ids := t.ids
        focused := s.focusAsked (.insert node magnified focused)
        magnified := s.magnifiedAsked (.insert node magnified focused) } := by
    intro t ht
    rw [ht]
    cases magnified <;> cases focused <;> rfl
  rw [insert] at h
  split at h
  · cases h
    exact hmarks (s.plant node) rfl
  · obtain ⟨t, ht, h⟩ := bind_eq_ok h
    obtain ⟨⟨⟩, -, ht⟩ := bind_eq_ok ht
    split at ht
    · cases ht
    · cases ht
      cases h
      exact hmarks _ rfl

theorem delete_writes {s r : State α} {id : NodeId} (h : s.delete id = .ok r) :
    r = { s with root := r.root } := by
  obtain ⟨root, -, h⟩ := bind_eq_ok h
  split at h
  · cases h
    rfl
  split at h
  · cases h
    rfl
  · cases h

theorem swap_writes {s r : State α} {first second : NodeId} (h : s.swap first second = .ok r) :
    r = { s with root := r.root } := by
  obtain ⟨root, p, q, a, b, -, -, -, -, rfl⟩ := swap_eq_ok_iff.mp h
  rfl

/-- An edit writes the tree and the supply; an insertion may ask for the focus and the magnification
too. -/
theorem edit_writes {s r : State α} {b : Action α} (h : s.edit b = .ok r) :
    r = { s with
      root := r.root, ids := r.ids
      focused := s.focusAsked b, magnified := s.magnifiedAsked b } := by
  cases b with
  | move parent atRoot i node => exact move_writes h
  | insert node magnified focused => exact insert_writes h
  | delete id =>
    rw [delete_writes h]
    rfl
  | swap first second =>
    rw [swap_writes h]
    rfl
  | resize shares =>
    obtain ⟨root, -, h⟩ := bind_eq_ok h
    obtain ⟨-, -, h⟩ := bind_eq_ok h
    cases h
    rfl
  | _ =>
    cases h
    rfl

/-! ## 4. Runs -/

def trace (s : State α) : List (Action α) → List (State α × Option Rejection)
  | [] => []
  | a :: as => s.step a :: (s.step a).1.trace as

end State

end Tiling
