/-!
# Orientation

The line along which a node's children are arranged.
-/

namespace Tiling

inductive Orientation where
  /-- Side by side, left to right. -/
  | row
  /-- Stacked, top to bottom. -/
  | column
deriving DecidableEq, Repr

namespace Orientation

def reverse : Orientation → Orientation
  | row => column
  | column => row

@[simp] theorem reverse_reverse (o : Orientation) : o.reverse.reverse = o := by
  cases o <;> rfl

end Orientation

end Tiling
