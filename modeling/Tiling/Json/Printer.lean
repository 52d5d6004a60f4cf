import Tiling.Json

/-!
# Printing JSON

The text of a value without white space. A number that is not an integer literal has a fraction or
an exponent, so that it is not read as one.
-/

namespace Tiling.Json

def hexPair (n : Nat) : String :=
  String.ofList [Nat.digitChar (n / 16), Nat.digitChar (n % 16)]

def escapeLetter? : Char → Option Char
  | '"' => some '"'
  | '\\' => some '\\'
  | '\x08' => some 'b'
  | '\t' => some 't'
  | '\n' => some 'n'
  | '\x0c' => some 'f'
  | '\r' => some 'r'
  | _ => none

def escape (c : Char) : String :=
  match escapeLetter? c with
  | some letter => String.ofList ['\\', letter]
  | none => if c < ' ' then "\\u00" ++ hexPair c.toNat else c.toString

def quote (s : String) : String :=
  "\"" ++ String.join (s.toList.map escape) ++ "\""

/-- A number literal without its sign. -/
structure Literal where
  whole : List Char
  fraction : List Char := []
  exponent : Option Int := none

namespace Literal

def exponentChars : Option Int → List Char
  | none => []
  | some e => 'e' :: (Decimal.signChars (e < 0) ++ Nat.toDigits 10 e.natAbs)

def chars (l : Literal) : List Char :=
  l.whole ++ (Decimal.fractionChars l.fraction ++ exponentChars l.exponent)

end Literal

/-- With an exponent one digit stands before the point, and without one at least one after it. -/
def literal (n : Numeral) : Literal :=
  let digits := Nat.toDigits 10 n.decimal.digits
  if n.integral then { whole := digits }
  else if Numeral.isPositional n.decimal then
    let (whole, fraction) := n.decimal.atPoint
    { whole, fraction := if fraction.isEmpty then ['0'] else fraction }
  else
    { whole := digits.take 1
      fraction := digits.drop 1
      exponent := some (n.decimal.magnitude - 1) }

def printNumber (n : Numeral) : String :=
  String.ofList (Decimal.signChars n.decimal.negative ++ (literal n).chars)

mutual

def print : Json → String
  -- A value that names no text is printed like null.
  | null | unreadable => "null"
  | bool b => if b then "true" else "false"
  | number n => printNumber n
  | string s => quote s
  | array items => "[" ++ String.intercalate "," (printItems items) ++ "]"
  | object fields => "\x7b" ++ String.intercalate "," (printFields fields) ++ "\x7d"

def printItems : List Json → List String
  | [] => []
  | j :: js => j.print :: printItems js

def printFields : List (String × Json) → List String
  | [] => []
  | (name, j) :: fs => (quote name ++ ":" ++ j.print) :: printFields fs

end

end Tiling.Json
