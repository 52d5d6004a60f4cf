import Tiling.Proofs.Gesture

/-!
# Abandoned drags

All that a drag sends before it is released stages a drop or clears the staged one. So a drag that
is cancelled, or that is let go over no zone, leaves nothing behind, whatever it was moved over. If
other calls come in between, the end of the drag still leaves nothing staged: what it commits, it
uses up.
-/

namespace Tiling

variable {α : Type}

/-- What a host tells a drag. A move of the pointer comes with a layout to find the zone in, which
may be out of date. -/
inductive DragEvent where
  | start (node : NodeId)
  | moveTo (p : Point) (layout : List (NodeId × Rect))
  | release
  | cancel

def DragEvent.isEnd : DragEvent → Bool
  | .release | .cancel => true
  | _ => false

/-- What a host does while it has a drag and a state: it passes on the events of the drag and makes
calls of its own. -/
inductive HostEvent (α : Type) where
  | drag (e : DragEvent)
  | call (c : Call α)

def Drag.handle (fractions : ZoneFractions) (d : Drag) : DragEvent → Drag × Option (Action α)
  | .start node => (.start node, none)
  | .moveTo p layout => d.moveTo p layout fractions
  | .release => d.release
  | .cancel => d.cancel

def HostEvent.run (fractions : ZoneFractions) : Drag × State α → HostEvent α → Drag × State α
  -- What the drag sends is performed at once.
  | (d, s), .drag e =>
      let (d, a) := d.handle fractions e
      (d, s.dispatch a)
  | (d, s), .call c => (d, s.call c)

def HostEvent.runAll (fractions : ZoneFractions) (start : Drag × State α)
    (events : List (HostEvent α)) : Drag × State α :=
  events.foldl (run fractions) start

def Hover.last? (fractions : ZoneFractions) (node : NodeId)
    (moves : List (Point × List (NodeId × Rect))) : Option Hover :=
  (moves.map fun (p, layout) => Hover.find? layout node p fractions).getLast?.join

/-! ## 1. Before the end of a drag -/

namespace HostEvent

theorem runAll_append (fractions : ZoneFractions) (start : Drag × State α)
    (events later : List (HostEvent α)) :
    runAll fractions start (events ++ later) =
      runAll fractions (runAll fractions start events) later :=
  List.foldl_append

def move : Point × List (NodeId × Rect) → HostEvent α
  | (p, layout) => .drag (.moveTo p layout)

/-- A move of the pointer takes note of the hovered zone and touches what is staged, at most. -/
theorem run_move (s : State α) (fractions : ZoneFractions) (node : NodeId) (hover : Option Hover)
    (staged : Option (Action α)) (m : Point × List (NodeId × Rect)) :
    ∃ staged', run fractions (.dragging node hover, { s with staged }) (move m) =
      (.dragging node (Hover.find? m.2 node m.1 fractions), { s with staged := staged' }) := by
  rw [move, run, Drag.handle, Drag.moveTo]
  by_cases hsame : Hover.find? m.2 node m.1 fractions = hover
  · exact ⟨staged, by simp only [hsame, if_true]; rfl⟩
  · simp only [hsame, if_false, State.dispatch, Option.elim_some, State.apply_request]
    exact ⟨_, rfl⟩

/-- However the pointer moves, the drag stages and clears and changes nothing else of the state. -/
theorem runAll_move (s : State α) (fractions : ZoneFractions) (node : NodeId)
    (moves : List (Point × List (NodeId × Rect))) :
    ∃ staged, runAll fractions (.start node, s) (moves.map move) =
      (.dragging node (Hover.last? fractions node moves), { s with staged }) := by
  induction moves using List.reverseRecOn with
  | nil => exact ⟨s.staged, rfl⟩
  | append_singleton moves m ih =>
    obtain ⟨staged, ih⟩ := ih
    have hlast : Hover.last? fractions node (moves ++ [m]) =
        Hover.find? m.2 node m.1 fractions := by
      simp [Hover.last?]
    rw [List.map_append, runAll_append, ih, hlast]
    exact run_move s fractions node _ staged m

/-! ## 2. The end of a drag -/

theorem run_end_fst (fractions : ZoneFractions) (d : Drag) (s : State α) {last : DragEvent}
    (hlast : last.isEnd) : (run fractions (d, s) (.drag last)).1 = .idle := by
  cases last with
  | release => rcases d with _ | ⟨node, _ | hover⟩ <;> rfl
  | cancel => cases d <;> rfl
  | _ => cases hlast

/-- A drag that is abandoned clears what is staged. -/
theorem run_abandon (s : State α) (fractions : ZoneFractions) (node : NodeId) (hover : Option Hover)
    {last : DragEvent} (hlast : last = .cancel ∨ last = .release ∧ hover = none) :
    run fractions (.dragging node hover, s) (.drag last) = (.idle, { s with staged := none }) := by
  rcases hlast with rfl | ⟨rfl, rfl⟩ <;> rfl

end HostEvent

namespace Node

/-- What a drop asks for edits the tree. -/
theorem isEdit_of_resolveDrop {root : Node α} {target moved : NodeId} {zone : DropZone}
    {a : Action α} (h : root.resolveDrop target moved zone = .ok (some a)) : a.isEdit := by
  rw [resolveDrop] at h
  split at h
  · cases h
  split at h
  · cases h
  · cases h
  split at h
  · cases h
  split at h
  · obtain ⟨b, hb, h⟩ := State.map_eq_ok h
    obtain rfl := Option.some.inj h
    rw [resolveSwap] at hb
    split at hb
    · cases hb
    split at hb
    · cases hb
    · cases hb
      rfl
  · split at h
    · cases h
    split at h
    · cases h
    · cases h
      rfl

end Node

namespace State

/-- What is staged is a move or a swap, so to commit it edits the tree. -/
theorem StagedFits.isEdit {s : State α} (hs : s.StagedFits) {a : Action α}
    (ha : s.staged = some a) : a.isEdit := by
  obtain ⟨root, target, moved, zone, -, hdrop⟩ := hs a ha
  exact Node.isEdit_of_resolveDrop hdrop

/-- To commit leaves nothing staged: a rejected action is used up, and an accepted one settles the
state. -/
theorem staged_apply_commitStaged {s : State α} (hs : s.StagedFits) :
    (s.apply .commitStaged).staged = none := by
  rw [apply]
  by_cases haccepted : (s.step .commitStaged).2 = none
  · have hperform := step_accepted haccepted
    cases hstaged : s.staged with
    | none =>
      rw [performed, hstaged] at hperform
      cases hperform
    | some a =>
      rw [performed, hstaged, Option.getD_some] at hperform
      obtain ⟨r, -, hr⟩ := perform_edit (hs.isEdit hstaged) hperform
      rw [← hr]
      rfl
  · rw [step_rejected haccepted]
    rfl

end State

namespace HostEvent

/-- Whatever ends a drag, nothing is staged after it. -/
theorem run_end_staged (fractions : ZoneFractions) {d : Drag} {s : State α} (hs : s.StagedFits)
    (hd : d.isDragging) {last : DragEvent} (hlast : last.isEnd) :
    (run fractions (d, s) (.drag last)).2.staged = none := by
  cases d with
  | idle => cases hd
  | dragging node hover =>
    cases last with
    | cancel => rfl
    | release =>
      cases hover with
      | none => rfl
      | some hover => exact State.staged_apply_commitStaged hs
    | _ => cases hlast

/-! ## 3. Runs of the host -/

theorem run_reachable (fractions : ZoneFractions) (d : Drag) {s : State α} (hs : Reachable s)
    (e : HostEvent α) : Reachable (run fractions (d, s) e).2 := by
  cases e with
  | call c => exact .call c hs
  | drag e =>
    show Reachable (s.dispatch (d.handle fractions e).2)
    cases (d.handle fractions e).2 with
    | none => exact hs
    | some a => exact .call (.perform a) hs

/-- A drag takes reachable states to reachable states. -/
theorem runAll_reachable (fractions : ZoneFractions) (d : Drag) {s : State α} (hs : Reachable s)
    (events : List (HostEvent α)) : Reachable (runAll fractions (d, s) events).2 := by
  induction events generalizing d s with
  | nil => exact hs
  | cons e events ih => exact ih _ (run_reachable fractions d hs e)

end HostEvent

/-- A drag that is cancelled, or let go over no zone, leaves the state as it was with nothing
staged, whatever layouts it was moved over. If other calls come in between, then in a reachable
state nothing is staged once the drag has ended. -/
theorem abandoned_drag_leaves_no_trace :
    (∀ (s : State α) (fractions : ZoneFractions) (node : NodeId)
        (moves : List (Point × List (NodeId × Rect))) (last : DragEvent),
      last = .cancel ∨ last = .release ∧ Hover.last? fractions node moves = none →
      HostEvent.runAll fractions (.idle, s)
          (.drag (.start node) :: moves.map HostEvent.move ++ [.drag last]) =
        (.idle, { s with staged := none })) ∧
    ∀ (s : State α) (fractions : ZoneFractions) (d : Drag) (events : List (HostEvent α))
        (last : DragEvent), Reachable s →
      (HostEvent.runAll fractions (d, s) events).1.isDragging → last.isEnd →
      (HostEvent.runAll fractions (d, s) (events ++ [.drag last])).1 = .idle ∧
        (HostEvent.runAll fractions (d, s) (events ++ [.drag last])).2.staged = none := by
  constructor
  · intro s fractions node moves last hlast
    obtain ⟨staged, hmoves⟩ := HostEvent.runAll_move s fractions node moves
    have hstart : HostEvent.run fractions (.idle, s) (.drag (.start node)) = (.start node, s) := rfl
    rw [List.cons_append, HostEvent.runAll, List.foldl_cons, hstart, ← HostEvent.runAll,
      HostEvent.runAll_append, hmoves]
    exact HostEvent.run_abandon { s with staged } fractions node _ hlast
  · intro s fractions d events last hs hdragging hlast
    have hfits := (HostEvent.runAll_reachable fractions d hs events).stagedFits
    rw [HostEvent.runAll_append]
    exact ⟨HostEvent.run_end_fst fractions _ _ hlast,
      HostEvent.run_end_staged fractions hfits hdragging hlast⟩

/-- A pane is dragged over the other one and back over itself before it is let go. When it is taken
up again, the other one is deleted under the pointer before the release. -/
theorem drag_over_deleted_pane_leaves_no_trace :
    ∃ (s t : State Unit) (moves : List (Point × List (NodeId × Rect)))
      (events : List (HostEvent Unit)), s.staged = some .commitStaged ∧
      HostEvent.runAll {} (.idle, s)
        (.drag (.start ⟨2⟩) :: moves.map HostEvent.move ++ [.drag .release]) =
        (.idle, { s with staged := none }) ∧
      (HostEvent.runAll {} (.idle, t) events).1 = .dragging ⟨2⟩ (some ⟨⟨3⟩, .left⟩) ∧
      (HostEvent.runAll {} (.idle, t) (events ++ [.drag .release])).2.staged = none := by
  let pane (n : UInt64) : Node Unit := .leaf { id := ⟨n⟩ } ()
  let t := State.ofRoot (.branch { id := ⟨1⟩ } [pane 2, pane 3])
  let s : State Unit := { t with staged := some .commitStaged }
  let layout : List (NodeId × Rect) := [(⟨2⟩, ⟨0, 0, 100, 100⟩), (⟨3⟩, ⟨100, 0, 100, 100⟩)]
  let moves : List (Point × List (NodeId × Rect)) := [(⟨120, 50⟩, layout), (⟨50, 50⟩, layout)]
  let events : List (HostEvent Unit) :=
    [.drag (.start ⟨2⟩), .drag (.moveTo ⟨120, 50⟩ layout), .call (.perform (.delete ⟨3⟩))]
  have hleaves := abandoned_drag_leaves_no_trace (α := Unit)
  have hnone : Hover.last? {} ⟨2⟩ moves = none := by decide +kernel
  have hdragging : (HostEvent.runAll {} (.idle, t) events).1 =
      .dragging ⟨2⟩ (some ⟨⟨3⟩, .left⟩) := by
    decide +kernel
  refine ⟨s, t, moves, events, rfl, hleaves.1 s {} ⟨2⟩ moves .release (.inr ⟨rfl, hnone⟩),
    hdragging, ?_⟩
  refine (hleaves.2 t {} .idle events .release (.ofRoot _) ?_ rfl).2
  rw [hdragging]
  rfl

end Tiling
