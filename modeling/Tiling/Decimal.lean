/-!
# Decimal numbers

A decimal is `digits * 10 ^ exponent` with a sign. Its value as a floating-point number is rounded
to nearest, ties to even. A number that is rounded to double precision first and then to single
precision may come out differently from one that is rounded to single precision at once. A finite
single precision number is a decimal exactly.
-/

namespace Tiling

structure Decimal where
  negative : Bool := false
  digits : Nat
  exponent : Int := 0
deriving DecidableEq, Repr

open Float.Model (Format UnpackedFloat)

def roundToSingle (x : Float) : Float32 :=
  .ofModel <| .pack <|
    match x.toModel.unpack with
    | .finite sign significand exponent _ => .round Format.binary32 sign significand exponent
    | rest => rest

namespace Decimal

def toDouble (d : Decimal) : Float :=
  let size := Float.ofModel (.ofScientific d.digits d.exponent)
  if d.negative then -size else size

def toSingle (d : Decimal) : Float32 :=
  let size := Float32.ofModel (.ofScientific d.digits d.exponent)
  if d.negative then -size else size

/-- The first `limit` digits, and after them a one that stands for all further digits, even for
zeros. -/
def curtail (limit : Nat) (d : Decimal) : Decimal :=
  let further := (Nat.toDigits 10 d.digits).length - limit
  if further = 0 then d
  else
    { d with
      digits := d.digits / Nat.pow 10 further * 10 + 1
      exponent := d.exponent + (further - 1 : Nat) }

/-- A decimal with few enough digits keeps them all. -/
theorem curtail_of_length_le {limit : Nat} {d : Decimal}
    (h : (Nat.toDigits 10 d.digits).length ≤ limit) : d.curtail limit = d := by
  simp [curtail, Nat.sub_eq_zero_of_le h]

def toSingleTwice (d : Decimal) : Float32 :=
  roundToSingle d.toDouble

def ofSingle? (x : Float32) : Option Decimal :=
  -- Infinities and NaN have no decimal.
  match x.toModel.unpack with
  | .zero sign => some ⟨sign matches .negative, 0, 0⟩
  | .finite sign significand exponent _ =>
      if 0 ≤ exponent then
        some ⟨sign matches .negative, significand * Nat.pow 2 exponent.toNat, 0⟩
      else
        -- `2 ^ e = 5 ^ (-e) * 10 ^ e`
        some ⟨sign matches .negative, significand * Nat.pow 5 (-exponent).toNat, exponent⟩
  | _ => none

end Decimal

end Tiling
