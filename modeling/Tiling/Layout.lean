import Tiling.Node
import Tiling.Rect

/-!
# Layout

The rectangles of the visible leaves. A branch divides its extent along its orientation among its
visible children in proportion to their shares; a hidden node takes no space.
-/

namespace Tiling

namespace Share

def weight (share : Float32) : Float32 :=
  if 0.0 < share then share else 0.0

end Share

namespace Rect

def extent (r : Rect) : Orientation → Float32
  | .row => r.width
  | .column => r.height

/-- The part of the rectangle that starts `offset` along the orientation and is `span` long. -/
def strip (r : Rect) (offset span : Float32) : Orientation → Rect
  | .row => ⟨r.x + offset, r.y, span, r.height⟩
  | .column => ⟨r.x, r.y + offset, r.width, span⟩

end Rect

variable {α : Type}

/-- How a branch divides its extent among its visible children. -/
structure Division where
  bounds : Rect
  orientation : Orientation
  /-- What the children's weights add up to. -/
  total : Float32
  /-- How many children there are. -/
  count : Float32

namespace Division

def of (bounds : Rect) (orientation : Orientation) (sizes : List Float32) : Division :=
  { bounds, orientation
    total := Share.total (sizes.map Share.weight)
    count := Share.count sizes }

def extent (d : Division) : Float32 :=
  d.bounds.extent d.orientation

def span (d : Division) (share : Float32) : Float32 :=
  -- Where nothing has weight, all get the same.
  if 0.0 < d.total then d.extent * Share.weight share / d.total else d.extent / d.count

end Division

def Forest.visible (forest : Forest α) : Forest α :=
  forest.filter Node.visible

mutual

/-- The leaves below a visible node, each with its part of `bounds`. -/
def Node.arrange (bounds : Rect) : Node α → List (NodeId × Rect)
  | .leaf h _ => [(h.id, bounds)]
  | .branch h cs =>
      Forest.arrange (.of bounds h.orientation ((Forest.visible cs).map Node.size)) 0.0 cs

def Forest.arrange (d : Division) (offset : Float32) : Forest α → List (NodeId × Rect)
  | [] => []
  | c :: cs =>
      if c.visible then
        -- The last visible child takes what is left of the extent, so that rounding leaves no gap.
        let span := if cs.any Node.visible then d.span c.size else d.extent - offset
        c.arrange (d.bounds.strip offset span d.orientation) ++
          Forest.arrange d (offset + span) cs
      else Forest.arrange d offset cs

end

namespace Node

def layout (n : Node α) (bounds : Rect) : List (NodeId × Rect) :=
  if n.visible then n.arrange bounds else []

end Node

end Tiling
