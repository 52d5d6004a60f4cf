import Tiling.Orientation

/-!
# Drop zones

A drop onto a pane lands in one of nine zones: the middle, one of the four sides, or the outer band
of a side.
-/

namespace Tiling

inductive DropZone where
  | top
  | right
  | bottom
  | left
  | outerTop
  | outerRight
  | outerBottom
  | outerLeft
  | center
deriving DecidableEq, Repr

namespace DropZone

/-- The line along which a drop in this zone arranges the two panes; the middle has none. -/
def axis? : DropZone → Option Orientation
  | top | bottom | outerTop | outerBottom => some .column
  | left | right | outerLeft | outerRight => some .row
  | center => none

def isOuter : DropZone → Bool
  | outerTop | outerRight | outerBottom | outerLeft => true
  | _ => false

/-- How far behind the target a drop in this zone lands: 0 for before it, 1 for after it. -/
def offset : DropZone → Nat
  | bottom | right | outerBottom | outerRight => 1
  | _ => 0

def toOuter : DropZone → DropZone
  | top => outerTop
  | right => outerRight
  | bottom => outerBottom
  | left => outerLeft
  | zone => zone

def label : DropZone → String
  | top => "Top"
  | right => "Right"
  | bottom => "Bottom"
  | left => "Left"
  | outerTop => "OuterTop"
  | outerRight => "OuterRight"
  | outerBottom => "OuterBottom"
  | outerLeft => "OuterLeft"
  | center => "Center"

end DropZone

end Tiling
