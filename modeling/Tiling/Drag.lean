import Tiling.Action
import Tiling.DropZone.HitTest

/-!
# Dragging a pane

A drag turns pointer events into actions. Each change of the hovered zone stages a drop or clears
the staged one; releasing the pane over a zone commits it.
-/

namespace Tiling

structure Hover where
  target : NodeId
  zone : DropZone
deriving DecidableEq, Repr

/-- A drag in progress keeps the zone that it last staged a drop for. -/
inductive Drag where
  | idle
  | dragging (node : NodeId) (hover : Option Hover)
deriving DecidableEq, Repr

def Hover.find? (layout : List (NodeId × Rect)) (dragged : NodeId) (p : Point)
    (fractions : ZoneFractions) : Option Hover := do
  -- The first rectangle that holds the point decides, the dragged pane's own being left out.
  let (target, rect) ← layout.find? fun (id, rect) => id != dragged && rect.contains p
  let zone ← DropZone.at? rect p fractions
  return ⟨target, zone⟩

namespace Drag

variable {α : Type}

def isDragging : Drag → Bool
  | idle => false
  | dragging .. => true

def start (node : NodeId) : Drag :=
  dragging node none

def request (dragged : NodeId) : Option Hover → Action α
  | some hover => .stageDrop hover.target dragged hover.zone
  | none => .clearStaged

def moveTo (d : Drag) (p : Point) (layout : List (NodeId × Rect)) (fractions : ZoneFractions) :
    Drag × Option (Action α) :=
  match d with
  | idle => (idle, none)
  | dragging node hover =>
      let next := Hover.find? layout node p fractions
      -- An action is sent only when the hovered zone changes.
      if next = hover then (d, none) else (dragging node next, some (request node next))

def release : Drag → Drag × Option (Action α)
  | idle => (idle, none)
  | dragging _ (some _) => (idle, some .commitStaged)
  | dragging _ none => (idle, some .clearStaged)

def cancel : Drag → Drag × Option (Action α)
  | idle => (idle, none)
  | dragging .. => (idle, some .clearStaged)

end Drag

end Tiling
