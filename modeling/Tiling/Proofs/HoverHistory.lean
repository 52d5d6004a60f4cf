import Tiling.Drag
import Mathlib.Data.List.Destutter

/-!
# What a drag sends while the pointer moves

A drag compares each hover with the one before it, however the layout changes in between, and sends
something just where they differ. So what it sends in all is the history of its hovers with
repetitions collapsed, and the hover that it keeps is the last one.
-/

namespace Tiling

variable {α : Type}

/-- A move of the pointer, with the layout as it is then. -/
structure PointerEvent where
  point : Point
  layout : List (NodeId × Rect)

/-! ## 1. What is hovered -/

namespace PointerEvent

def under (e : PointerEvent) (dragged : NodeId) : List (NodeId × Rect) :=
  e.layout.filter fun (id, rect) => id ≠ dragged ∧ rect.contains e.point

def hover (e : PointerEvent) (dragged : NodeId) (fractions : ZoneFractions) : Option Hover :=
  -- Where the point hits no zone of the first pane, nothing is hovered, whatever lies under the
  -- pointer besides.
  match e.under dragged with
  | [] => none
  | (target, rect) :: _ =>
      (DropZone.at? rect e.point fractions).map fun zone => ⟨target, zone⟩

variable {e : PointerEvent} {dragged : NodeId} {fractions : ZoneFractions}

theorem find?_eq_hover :
    Hover.find? e.layout dragged e.point fractions = e.hover dragged fractions := by
  have hfirst : (e.layout.find? fun (id, rect) => id != dragged && rect.contains e.point) =
      (e.under dragged).head? := by
    rw [under, List.head?_filter]
    refine congrArg (e.layout.find? ·) (funext fun (id, rect) => ?_)
    rw [Bool.eq_iff_iff]
    simp
  rw [Hover.find?, hfirst, hover]
  cases e.under dragged with
  | nil => rfl
  | cons pane _ =>
    show (DropZone.at? pane.2 e.point fractions).bind (fun zone => some (Hover.mk pane.1 zone)) = _
    exact (Option.map_eq_bind ..).symm

/-- A dragged node never hovers over itself. -/
theorem target_ne_of_hover {hover : Hover} (h : e.hover dragged fractions = some hover) :
    hover.target ≠ dragged := by
  rw [PointerEvent.hover] at h
  cases hunder : e.under dragged with
  | nil =>
    rw [hunder] at h
    cases h
  | cons pane _ =>
    rw [hunder] at h
    obtain ⟨zone, -, rfl⟩ := Option.map_eq_some_iff.mp h
    have hmem : pane ∈ e.under dragged := hunder ▸ List.mem_cons_self
    have hother := (List.mem_filter.mp hmem).2
    rw [decide_eq_true_iff] at hother
    exact hother.1

end PointerEvent

/-! ## 2. What is sent -/

/-- Without repetitions a history begins as it did before. -/
theorem cons_tail_destutter' {β : Type} [DecidableEq β] (b : β) (l : List β) :
    b :: (l.destutter' (· ≠ ·) b).tail = l.destutter' (· ≠ ·) b := by
  induction l with
  | nil => rfl
  | cons c l ih =>
    by_cases h : b ≠ c
    · rw [List.destutter'_cons_pos _ h]
      rfl
    · rw [List.destutter'_cons_neg _ h, ih]

namespace Drag

def follow (fractions : ZoneFractions) : Drag → List PointerEvent → Drag × List (Action α)
  | d, [] => (d, [])
  | d, e :: events =>
      let (next, sent) := d.moveTo e.point e.layout fractions
      let (last, rest) := follow fractions next events
      (last, sent.toList ++ rest)

/-- At one event the new hover is kept, and is sent where it differs from the one before. -/
theorem moveTo_dragging (fractions : ZoneFractions) (node : NodeId) (hover : Option Hover)
    (e : PointerEvent) :
    (dragging node hover).moveTo (α := α) e.point e.layout fractions =
      (dragging node (e.hover node fractions),
        if hover ≠ e.hover node fractions then some (request node (e.hover node fractions))
        else none) := by
  rw [moveTo, PointerEvent.find?_eq_hover]
  by_cases h : e.hover node fractions = hover
  · simp [h]
  · simp [h, Ne.symm h]

/-- The actions a drag emits are its hover history without repetitions in a row. -/
theorem follow_dragging (fractions : ZoneFractions) (node : NodeId) (hover : Option Hover)
    (events : List PointerEvent) :
    (dragging node hover).follow (α := α) fractions events =
      (dragging node ((events.map fun e => e.hover node fractions).getLastD hover),
        ((events.map fun e => e.hover node fractions).destutter' (· ≠ ·) hover).tail.map
          (request node)) := by
  induction events generalizing hover with
  | nil => rfl
  | cons e events ih =>
    rw [follow, moveTo_dragging]
    simp only [ih, List.map_cons, List.getLastD_cons]
    by_cases h : hover ≠ e.hover node fractions
    · -- the new hover is sent, and from here on it is the one to compare with
      rw [if_pos h, List.destutter'_cons_pos _ h, List.tail_cons, ← cons_tail_destutter']
      rfl
    · rw [if_neg h, List.destutter'_cons_neg _ h, not_not.mp h]
      rfl

end Drag

/-- All that a drag sends while the pointer moves is the history of its hovers, from the absence of
a hover at the start on, with repetitions collapsed and that start left out: a hovered zone becomes
a drop there, and the loss of all zones clears the staged drop. The drag keeps the last hover, and
never drops a pane onto itself. -/
theorem sent_eq_hover_history (fractions : ZoneFractions) (node : NodeId)
    (events : List PointerEvent) :
    let hovers := events.map fun e => e.hover node fractions
    let (drag, sent) := (Drag.start node).follow (α := α) fractions events
    sent = ((none :: hovers).destutter (· ≠ ·)).tail.map (fun hover =>
      hover.elim .clearStaged fun h => .stageDrop h.target node h.zone) ∧
    drag = .dragging node (hovers.getLastD none) ∧
    ∀ target moved zone, .stageDrop target moved zone ∈ sent → target ≠ node ∧ moved = node := by
  intro hovers
  rw [Drag.start, Drag.follow_dragging]
  refine ⟨?_, rfl, ?_⟩
  · refine List.map_congr_left fun hover _ => ?_
    cases hover <;> rfl
  · intro target moved zone hsent
    obtain ⟨hover, hmem, hrequest⟩ := List.mem_map.mp hsent
    cases hover with
    | none => cases hrequest
    | some h =>
      cases hrequest
      refine ⟨?_, rfl⟩
      -- whatever is sent was hovered at some event
      have hhistory := (List.destutter'_sublist _ _ none).subset (List.mem_of_mem_tail hmem)
      rcases List.mem_cons.mp hhistory with heq | hhover
      · cases heq
      · obtain ⟨e, -, he⟩ := List.mem_map.mp hhover
        exact PointerEvent.target_ne_of_hover he

end Tiling
