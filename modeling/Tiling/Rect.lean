/-!
# Rectangles

Rectangles and points of the plane in pixels, with `y` growing downwards.
-/

namespace Tiling

structure Point where
  x : Float32
  y : Float32
deriving BEq, DecidableEq

structure Rect where
  x : Float32
  y : Float32
  width : Float32
  height : Float32
deriving BEq, DecidableEq

namespace Rect

def contains (r : Rect) (p : Point) : Bool :=
  -- The left and the upper edge belong to a rectangle, the right and the lower one do not.
  r.x ≤ p.x && p.x < r.x + r.width && r.y ≤ p.y && p.y < r.y + r.height

def center (r : Rect) : Point :=
  ⟨r.x + r.width / 2.0, r.y + r.height / 2.0⟩

end Rect

end Tiling
