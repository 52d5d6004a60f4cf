import Tiling.Proofs.Step

/-!
# Reachable states

A host starts from the empty state or from a tree and then makes calls: it sends actions, asks for
new identifiers and leaves, and sets the configuration.
-/

namespace Tiling

variable {α : Type}

/-- What a host can do with a state. -/
inductive Call (α : Type) where
  | perform (a : Action α)
  | mintId
  | newLeaf (datum : α)
  | configure (config : Config)

def State.call (s : State α) : Call α → State α
  | .perform a => s.apply a
  | .mintId => s.mintId.2
  | .newLeaf datum => (s.newLeaf datum).2
  | .configure config => { s with config }

inductive Reachable : State α → Prop where
  | empty : Reachable .empty
  | ofRoot (root : Node α) : Reachable (.ofRoot root)
  | call {s : State α} (c : Call α) : Reachable s → Reachable (s.call c)

/-- What an accepted action, the loss of the staged action, a minted identifier and a new
configuration keep, every call keeps. -/
theorem State.call_invariant {P : State α → Prop}
    (perform : ∀ s b t, P s → s.perform b = .ok t → P t)
    (unstage : ∀ s, P s → P { s with staged := none })
    (mint : ∀ s, P s → P s.mintId.2)
    (configure : ∀ s config, P s → P { s with config }) {s : State α} (hs : P s) (c : Call α) :
    P (s.call c) := by
  cases c with
  | perform a =>
    have htaken : P (s.taken a) := by
      cases a with
      | commitStaged => exact unstage s hs
      | _ => exact hs
    rw [call, apply]
    by_cases ha : (s.step a).2 = none
    · exact perform _ _ _ htaken (step_accepted ha)
    · rwa [step_rejected ha]
  | mintId => exact mint s hs
  | newLeaf datum => exact mint s hs
  | configure config => exact configure s config hs

end Tiling
