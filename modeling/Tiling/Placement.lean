import Tiling.Action
import Tiling.Node.Lookup
import Tiling.Rejection

/-!
# Where a drop goes

A drop onto the middle of a pane swaps the two panes. A drop onto a side places the moved node
beside the target, or inside it, along the axis of the zone.
-/

namespace Tiling

variable {α : Type}

/-- Under `parent` at `index`, or beside the whole tree where there is no parent. -/
structure Placement where
  parent : Option NodeId
  index : Nat
deriving DecidableEq, Repr

namespace Placement

def besideParent? (root target : Node α) (offset : Nat) : Option Placement := do
  let parent ← root.parent? target.id
  let grandparent ← root.parent? parent.id
  let index ← grandparent.childIndex? parent.id
  return ⟨some grandparent.id, index + offset⟩

def beside? (root target : Node α) (offset : Nat) : Option Placement :=
  match root.parent? target.id with
  | some parent =>
      (parent.childIndex? target.id).map fun index => ⟨some parent.id, index + offset⟩
  | none => if target.id = root.id then some ⟨none, offset⟩ else none

/-- The place for a drop onto a side of the target. A target that runs along the zone's axis takes
the node in; for an outer zone it first passes it on to its grandparent. -/
def ofDrop? (root target : Node α) (axis : Orientation) (zone : DropZone) : Option Placement :=
  if target.orientation = axis then
    let further := if zone.isOuter then besideParent? root target zone.offset else none
    some (further.getD ⟨some target.id, zone.offset⟩)
  else beside? root target zone.offset

/-- Whether a node that goes to this place stays where it is: its new index is its own, or the one
after it. -/
def keeps (p : Placement) (root : Node α) (moved : NodeId) : Bool :=
  match root.parent? moved with
  | some parent =>
      p.parent = some parent.id &&
        match parent.childIndex? moved with
        | some current => current = p.index || current + 1 = p.index
        | none => false
  | none => false

end Placement

namespace Node

def resolveSwap (root target moved : Node α) : Except Rejection (Action α) :=
  if target.id = root.id || moved.id = root.id then .error (.rootSwap root.id)
  else if target.contains moved.id then .error (.inside moved.id target.id)
  else .ok (.swap target.id moved.id)

/-- The move or swap that a drop of `moved` onto `target` asks for; none for a drop that would leave
the tree as it is. -/
def resolveDrop (root : Node α) (target moved : NodeId) (zone : DropZone) :
    Except Rejection (Option (Action α)) :=
  if target = moved then .error (.sameNode target)
  else
    match root.find? target, root.find? moved with
    | none, _ => .error (.notFound target)
    | some _, none => .error (.notFound moved)
    | some targetNode, some movedNode =>
        if movedNode.contains target then .error (.inside target moved)
        else
          match zone.axis? with
          | none => (root.resolveSwap targetNode movedNode).map some
          | some axis =>
              match Placement.ofDrop? root targetNode axis zone with
              | none => .error (.noPlacement target zone)
              | some place =>
                  if place.keeps root moved then .ok none
                  else .ok (some (.move place.parent place.parent.isNone place.index movedNode))

end Node

end Tiling
