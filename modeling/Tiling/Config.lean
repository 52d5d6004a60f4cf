import Tiling.DropZone.HitTest

/-!
# Configuration

How many children a branch takes before a new leaf splits an existing one, and the proportions of
the drop zones.
-/

namespace Tiling

structure Config where
  maxChildren : Nat := 5
  zones : ZoneFractions := {}
deriving BEq, DecidableEq

namespace Config

/-- A setting out of its range. -/
inductive Invalid where
  | maxChildren
  | centerFraction
  | outerFraction
deriving DecidableEq, Repr

def Invalid.message : Invalid → String
  | maxChildren => "validation error: max_children_per_node must be >= 2"
  | centerFraction => "validation error: drop_zones.center_fraction must be in (0, 1)"
  | outerFraction => "validation error: drop_zones.outer_fraction must be in [0, 0.5)"

def invalid? (c : Config) : Option Invalid :=
  if c.maxChildren < 2 then some .maxChildren
  else if !(0.0 < c.zones.center && c.zones.center < 1.0) then some .centerFraction
  else if !(0.0 ≤ c.zones.outer && c.zones.outer < 0.5) then some .outerFraction
  else none

end Config

end Tiling
