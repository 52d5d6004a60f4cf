import Tiling.Decimal.Shortest

/-!
# JSON values

A JSON text as a tree. Numbers keep their decimal digits, but for the zeros that end a fraction, and
objects keep their fields in order with repeated names and all, so that a reader can still tell such
texts apart. A reader takes a value at once, or holds it back until it knows what the value is part
of; numbers that are held back are in double precision meanwhile.
-/

namespace Tiling

/-- A number literal: its value, and whether it is written without a fraction and an exponent. -/
structure Numeral where
  decimal : Decimal
  integral : Bool
deriving DecidableEq, Repr

inductive Json where
  | null
  | bool (value : Bool)
  | number (value : Numeral)
  | string (value : String)
  | array (items : List Json)
  | object (fields : List (String × Json))
  /-- A string that is well written but names no text, or an object with such a field name. -/
  | unreadable
deriving Inhabited

namespace Numeral

def ofNat (n : Nat) : Numeral :=
  ⟨{ digits := n }, true⟩

def isPositional (d : Decimal) : Bool :=
  -6 < d.magnitude && d.magnitude ≤ 13

def ofDecimal (d : Decimal) : Numeral :=
  -- The zeros before the point are digits where there is no exponent.
  if isPositional d && 0 ≤ d.exponent then
    ⟨{ d with digits := d.digits * Nat.pow 10 d.exponent.toNat, exponent := 0 }, false⟩
  else ⟨d, false⟩

def word? (n : Numeral) : Option UInt64 :=
  -- A minus sign rules a literal out, even before zero.
  if n.integral && !n.decimal.negative && n.decimal.digits < UInt64.size then
    some n.decimal.digits.toUInt64
  else none

/-- How many digits are read in single precision. No number halfway between two neighbours has
more, so the digits after them can only turn a tie into a rise. -/
def digitsOfSingle : Nat := 113

def digitsOfDouble : Nat := 768

/-- The number in single precision. An integer literal of a 64-bit type is rounded once. Any other
number is rounded once where it is read at once and twice where it is held back, but a negative
integer literal with the digits of a 64-bit word is always rounded twice. The precision that a
number is rounded to first must have room for it. -/
def single? (held : Bool) (n : Numeral) : Option Float32 :=
  let d := n.decimal
  if n.integral && d.digits < UInt64.size then
    some (if d.negative && 0x8000000000000000 < d.digits then d.toSingleTwice else d.toSingle)
  else if held then
    let x := (d.curtail digitsOfDouble).toDouble
    if x.isInf then none else some (roundToSingle x)
  else
    let x := (d.curtail digitsOfSingle).toSingle
    if x.isInf then none else some x

end Numeral

namespace Json

def ofWord (n : UInt64) : Json :=
  number (.ofNat n.toNat)

def ofSingle (x : Float32) : Json :=
  match Decimal.shortest? x with
  | some d => number (.ofDecimal d)
  -- There is no JSON number for infinities and NaN.
  | none => null

def word? : Json → Option UInt64
  | number n => n.word?
  | _ => none

def single? (held : Bool) : Json → Option Float32
  | number n => n.single? held
  | _ => none

def bool? : Json → Option Bool
  | bool b => some b
  | _ => none

def string? : Json → Option String
  | string s => some s
  | _ => none

def items? : Json → Option (List Json)
  | array items => some items
  | _ => none

mutual

def depth : Json → Nat
  | array items => depthOfItems items + 1
  | object fields => depthOfFields fields + 1
  | _ => 0

def depthOfItems : List Json → Nat
  | [] => 0
  | j :: js => max j.depth (depthOfItems js)

def depthOfFields : List (String × Json) → Nat
  | [] => 0
  | (_, j) :: fs => max j.depth (depthOfFields fs)

end

mutual

/-- Whether what is held back can be: every string names a text, and every number is in range. -/
def readable : Json → Bool
  | null | bool _ | string _ => true
  | number n => (n.single? true).isSome
  | array items => readableItems items
  | object fields => readableFields fields
  | unreadable => false

def readableItems : List Json → Bool
  | [] => true
  | j :: js => j.readable && readableItems js

def readableFields : List (String × Json) → Bool
  | [] => true
  | (_, j) :: fs => j.readable && readableFields fs

end

end Json

end Tiling
