import Tiling.Json
import Tiling.Text.Digits
import Tiling.Text.Piece

/-!
# JSON tokens

The lexical level: punctuation, literals, numbers and strings. White space between tokens is blank,
tab, line feed and carriage return.
-/

namespace Tiling.Json

inductive Token where
  | openArray
  | closeArray
  | openObject
  | closeObject
  | comma
  | colon
  | null
  | bool (value : Bool)
  | number (value : Numeral)
  /-- A string literal; `none` where its escapes name no text. -/
  | text (value : Option String)

namespace Token

def isBlank (c : Char) : Bool :=
  c = ' ' || c = '\n' || c = '\t' || c = '\r'

def scanText (acc : List Piece) : List Char → Option (List Piece × List Char)
  -- The opening quote is gone already. Control characters are not allowed.
  | [] => none
  | '"' :: cs => some (acc.reverse, cs)
  | '\\' :: 'u' :: a :: b :: c :: d :: cs =>
      if [a, b, c, d].all (Digits.isDigit 16) then
        scanText (.unit (Digits.toNat 16 [a, b, c, d]) :: acc) cs
      else none
  | '\\' :: 'b' :: cs => scanText (.char '\x08' :: acc) cs
  | '\\' :: 'f' :: cs => scanText (.char '\x0c' :: acc) cs
  | '\\' :: 'n' :: cs => scanText (.char '\n' :: acc) cs
  | '\\' :: 'r' :: cs => scanText (.char '\r' :: acc) cs
  | '\\' :: 't' :: cs => scanText (.char '\t' :: acc) cs
  | '\\' :: c :: cs =>
      if c = '"' || c = '\\' || c = '/' then scanText (.char c :: acc) cs else none
  | c :: cs => if c < ' ' || c = '\\' then none else scanText (.char c :: acc) cs

def scanDigits (cs : List Char) : Option (List Char × List Char) :=
  match cs.span (Digits.isDigit 10) with
  | ([], _) => none
  | digits => some digits

def scanFraction : List Char → Option (List Char × List Char)
  | '.' :: cs => scanDigits cs
  | cs => some ([], cs)

def withoutLastZeros (digits : List Char) : List Char :=
  (digits.reverse.dropWhile (· = '0')).reverse

def scanSigned : List Char → Option (Int × List Char)
  | '-' :: cs => (scanDigits cs).map fun (ds, cs) => (-(Digits.toNat 10 ds : Int), cs)
  | '+' :: cs => (scanDigits cs).map fun (ds, cs) => ((Digits.toNat 10 ds : Int), cs)
  | cs => (scanDigits cs).map fun (ds, cs) => ((Digits.toNat 10 ds : Int), cs)

def scanExponent : List Char → Option (Option Int × List Char)
  | 'e' :: cs => (scanSigned cs).map fun (e, cs) => (some e, cs)
  | 'E' :: cs => (scanSigned cs).map fun (e, cs) => (some e, cs)
  | cs => some (none, cs)

def scanNumber (negative : Bool) (cs : List Char) : Option (Numeral × List Char) := do
  let (whole, cs) ← scanDigits cs
  -- The integer part has no leading zero unless it is zero.
  if whole.head? = some '0' && whole.length ≠ 1 then none
  else
    let (fraction, cs) ← scanFraction cs
    let (exponent, cs) ← scanExponent cs
    let kept := withoutLastZeros fraction
    let decimal :=
      { negative
        digits := Digits.toNat 10 (whole ++ kept)
        exponent := exponent.getD 0 - kept.length }
    return (⟨decimal, fraction.isEmpty && exponent.isNone⟩, cs)

def scan : List Char → Option (Token × List Char)
  | '[' :: cs => some (openArray, cs)
  | ']' :: cs => some (closeArray, cs)
  | '\x7b' :: cs => some (openObject, cs)
  | '\x7d' :: cs => some (closeObject, cs)
  | ',' :: cs => some (comma, cs)
  | ':' :: cs => some (colon, cs)
  | 'n' :: 'u' :: 'l' :: 'l' :: cs => some (null, cs)
  | 't' :: 'r' :: 'u' :: 'e' :: cs => some (bool true, cs)
  | 'f' :: 'a' :: 'l' :: 's' :: 'e' :: cs => some (bool false, cs)
  | '"' :: cs => (scanText [] cs).map fun (pieces, cs) => (text (Piece.text? pieces), cs)
  | '-' :: cs => (scanNumber true cs).map fun (n, cs) => (number n, cs)
  | cs => (scanNumber false cs).map fun (n, cs) => (number n, cs)

def scanAll : Nat → List Token → List Char → Option (List Token)
  -- Each token takes at least one character, so the length of the text bounds the number of rounds.
  | 0, acc, cs => if cs.isEmpty then some acc.reverse else none
  | rounds + 1, acc, cs =>
      match cs with
      | [] => some acc.reverse
      | c :: rest =>
          if isBlank c then scanAll rounds acc rest
          else
            match scan cs with
            | some (token, cs) => scanAll rounds (token :: acc) cs
            | none => none

def ofText? (text : String) : Option (List Token) :=
  let cs := text.toList
  scanAll cs.length [] cs

end Token

end Tiling.Json
