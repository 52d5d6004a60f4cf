import Tiling.DropZone
import Tiling.Rect

/-!
# Which zone a point hits

The middle zone is a box around the center. What remains of the rectangle is cut along its two
diagonals into the four sides, and each side has an outer band along the rectangle's edges.
-/

namespace Tiling

structure ZoneFractions where
  /-- The extent of the middle box, as a fraction of the rectangle's. -/
  center : Float32 := 1.0 / 3.0
  /-- The depth of the outer band, as a fraction of the rectangle's extent. -/
  outer : Float32 := 0.1
deriving BEq, DecidableEq

namespace DropZone

/-- The side of a `w` by `h` rectangle at whose edge the diagonals enclose the point; none for a
point on a diagonal. -/
def side? (w h x y : Float32) : Option DropZone :=
  let belowMain := y * w - x * h
  let belowAnti := y * w + x * h - h * w
  if belowMain == 0.0 || belowAnti == 0.0 then none
  else
    some <|
      match decide (0.0 < belowMain), decide (0.0 < belowAnti) with
      | false, false => top
      | false, true => right
      | true, true => bottom
      | true, false => left

def at? (r : Rect) (p : Point) (fractions : ZoneFractions) : Option DropZone :=
  -- A point outside the rectangle and a point on a diagonal, beyond the middle box, hit no zone.
  let w := r.width
  let h := r.height
  if w ≤ 0.0 || h ≤ 0.0 then none
  else
    let x := p.x - r.x
    let y := p.y - r.y
    if x < 0.0 || y < 0.0 || w ≤ x || h ≤ y then none
    else
      let lo := (1.0 - fractions.center) / 2.0
      let hi := 1.0 - lo
      if w * lo < x && x < w * hi && h * lo < y && y < h * hi then some center
      else
        let band := fractions.outer
        let inBand := x < w * band || w * (1.0 - band) < x || y < h * band || h * (1.0 - band) < y
        (side? w h x y).map fun side => if inBand then side.toOuter else side

end DropZone

end Tiling
