import Tiling.Decimal
import Tiling.Toml.Text

/-!
# The numbers of TOML

Integers of 64 bits with a sign, in four bases, and double precision numbers. Single underscores may
stand between digits.
-/

namespace Tiling.Toml

def scanMoreDigits (base : Nat) (acc : List Char) : List Char → List Char × List Char
  -- An underscore belongs to the digits if a digit follows it.
  | '_' :: c :: cs =>
      if Digits.isDigit base c then scanMoreDigits base (c :: acc) cs
      else (acc.reverse, '_' :: c :: cs)
  | c :: cs =>
      if Digits.isDigit base c then scanMoreDigits base (c :: acc) cs else (acc.reverse, c :: cs)
  | [] => (acc.reverse, [])

def scanDigits (base : Nat) : Scan (List Char)
  | c :: cs => if Digits.isDigit base c then some (scanMoreDigits base [c] cs) else none
  | [] => none

def scanSign : List Char → Bool × List Char
  | '-' :: cs => (true, cs)
  | '+' :: cs => (false, cs)
  | cs => (false, cs)

def scanWhole : Scan (List Char)
  -- There is no leading zero, but a single zero.
  | '0' :: cs => some (['0'], cs)
  | cs => scanDigits 10 cs

def signed (negative : Bool) (n : Nat) : Int :=
  if negative then -n else n

def ofInt? (n : Int) : Option Toml :=
  if -0x8000000000000000 ≤ n && n < 0x8000000000000000 then some (.integer n) else none

def scanInteger : Scan Toml
  | '0' :: 'x' :: cs => inBase 16 cs
  | '0' :: 'o' :: cs => inBase 8 cs
  | '0' :: 'b' :: cs => inBase 2 cs
  | cs => do
      let (negative, cs) := scanSign cs
      let (digits, cs) ← scanWhole cs
      return (← ofInt? (signed negative (Digits.toNat 10 digits)), cs)
where
  inBase (base : Nat) : Scan Toml := fun cs => do
    let (digits, cs) ← scanDigits base cs
    return (← ofInt? (Digits.toNat base digits), cs)

def scanExponent : Scan Int
  | c :: cs =>
      if c = 'e' || c = 'E' then do
        let (negative, cs) := scanSign cs
        let (digits, cs) ← scanDigits 10 cs
        return (signed negative (Digits.toNat 10 digits), cs)
      else none
  | [] => none

def scanScale : Scan (List Char × Int)
  | '.' :: cs => do
      let (fraction, cs) ← scanDigits 10 cs
      match cs with
      | 'e' :: _ | 'E' :: _ => do
          let (exponent, cs) ← scanExponent cs
          return ((fraction, exponent), cs)
      | cs => return ((fraction, 0), cs)
  | cs => do
      let (exponent, cs) ← scanExponent cs
      return (([], exponent), cs)

def scanFinite (cs : List Char) : Option (Toml × List Char) := do
  let (negative, cs) := scanSign cs
  let (whole, cs) ← scanWhole cs
  let ((fraction, exponent), cs) ← scanScale cs
  let value := Decimal.toDouble
    { negative
      digits := Digits.toNat 10 (whole ++ fraction)
      exponent := exponent - fraction.length }
  -- Beyond the range of double precision upwards a float is refused; downwards it is negative
  -- infinity.
  if value.isInf && !negative then none else return (.float value, cs)

def scanSpecial (cs : List Char) : Option (Toml × List Char) :=
  match scanSign cs with
  | (negative, 'i' :: 'n' :: 'f' :: cs) =>
      let infinity : Float := 1.0 / 0.0
      some (.float (if negative then -infinity else infinity), cs)
  | (_, 'n' :: 'a' :: 'n' :: cs) => some (.float (0.0 / 0.0), cs)
  | _ => none

def scanNumber (cs : List Char) : Option (Toml × List Char) :=
  match scanFinite cs with
  | some found => some found
  | none =>
      match scanSpecial cs with
      | some found => some found
      | none => scanInteger cs

end Tiling.Toml
