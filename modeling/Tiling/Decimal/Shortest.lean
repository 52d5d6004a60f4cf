import Tiling.Decimal

/-!
# The shortest decimal of a single precision number

Of the decimals that read back as a given number, one with the fewest digits is chosen, and of those
the nearest to the number. In messages it has neither an exponent nor an empty fraction.
-/

namespace Tiling.Decimal

/-- The decimal without its last `count` digits, the rest rounded down or up: the nearer of the two
that reads back as `x`, and the one rounded up of two equally near. -/
def dropDigits? (x : Float32) (d : Decimal) (count : Nat) : Option Decimal :=
  let step := Nat.pow 10 count
  let down : Decimal := ⟨d.negative, d.digits / step, d.exponent + count⟩
  let up := { down with digits := down.digits + 1 }
  let nearestFirst := if 2 * (d.digits % step) < step then [down, up] else [up, down]
  nearestFirst.find? fun near => near.toSingle = x

/-- Digits are dropped only from a decimal that still reads back as the number. -/
theorem toSingle_of_dropDigits? {x : Float32} {d near : Decimal} {count : Nat}
    (h : dropDigits? x d count = some near) : near.toSingle = x := by
  simpa using List.find?_some h

def shorten (x : Float32) (d : Decimal) : Decimal :=
  if d.digits = 0 then d
  else
    -- As many digits as possible are dropped.
    let counts := (List.range ((Nat.toDigits 10 d.digits).length + 1)).reverse
    (counts.findSome? (dropDigits? x d)).getD d

def shortest? (x : Float32) : Option Decimal :=
  (ofSingle? x).map (shorten x)

/-- How many digits stand before the point, or with a minus sign how many zeros right after it. -/
def magnitude (d : Decimal) : Int :=
  (Nat.toDigits 10 d.digits).length + d.exponent

def atPoint (d : Decimal) : List Char × List Char :=
  let digits := Nat.toDigits 10 d.digits
  let places := d.exponent.natAbs
  if 0 ≤ d.exponent then (digits ++ List.replicate places '0', [])
  else
    -- At least one digit stands before the point.
    let padded := List.replicate (places + 1 - digits.length) '0' ++ digits
    padded.splitAt (padded.length - places)

def fractionChars (digits : List Char) : List Char :=
  if digits.isEmpty then [] else '.' :: digits

def signChars (negative : Bool) : List Char :=
  if negative then ['-'] else []

def positional (d : Decimal) : String :=
  let (whole, fraction) := d.atPoint
  String.ofList (signChars d.negative ++ whole ++ fractionChars fraction)

def textOfSingle (x : Float32) : String :=
  match shortest? x with
  | some d => positional d
  | none => if x.isNaN then "NaN" else if x < 0.0 then "-inf" else "inf"

end Tiling.Decimal
