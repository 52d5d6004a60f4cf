import Tiling.Text.Digits
import Tiling.Toml

/-!
# The texts of TOML

Blanks, comments, line ends, the four kinds of strings, and keys. A scanner takes what it looks for
from the front of the characters and gives back the rest.
-/

namespace Tiling.Toml

abbrev Scan (α : Type) := List Char → Option (α × List Char)

def isPlain (c : Char) : Bool :=
  c = '\t' || (' ' ≤ c && c ≠ '\x7f')

def isBlank (c : Char) : Bool :=
  c = ' ' || c = '\t'

def skipBlanks (cs : List Char) : List Char :=
  cs.dropWhile isBlank

def lineEnd? : List Char → Option (List Char)
  -- The end of the text ends a line too.
  | [] => some []
  | '\n' :: cs => some cs
  | '\r' :: '\n' :: cs => some cs
  | _ => none

def finishLine? (cs : List Char) : Option (List Char) :=
  match skipBlanks cs with
  | '#' :: cs => lineEnd? (cs.dropWhile isPlain)
  | cs => lineEnd? cs

mutual

def skipGap : List Char → Option (List Char)
  | '#' :: cs => skipComment cs
  | '\r' :: '\n' :: cs => skipGap cs
  | c :: cs => if isBlank c || c = '\n' then skipGap cs else some (c :: cs)
  | [] => some []

def skipComment : List Char → Option (List Char)
  | '\r' :: '\n' :: cs => skipGap cs
  | c :: cs => if c = '\n' then skipGap cs else if isPlain c then skipComment cs else none
  -- A comment's line must end.
  | [] => none

end

/-! ## Strings -/

def charOfDigits? (digits : List Char) : Option Char :=
  -- Surrogates are not characters.
  let n := Digits.toNat 16 digits
  if digits.all (Digits.isDigit 16) && n.isValidChar then some (Char.ofNat n) else none

def simpleEscape? : Char → Option Char
  | 'b' => some '\x08'
  | 't' => some '\t'
  | 'n' => some '\n'
  | 'f' => some '\x0c'
  | 'r' => some '\r'
  | '"' => some '"'
  | '\\' => some '\\'
  | _ => none

def scanEscape : Scan Char
  | 'u' :: cs => do
      let digits := cs.take 4
      if digits.length = 4 then return (← charOfDigits? digits, cs.drop 4) else none
  | 'U' :: cs => do
      let digits := cs.take 8
      if digits.length = 8 then return (← charOfDigits? digits, cs.drop 8) else none
  | c :: cs => (simpleEscape? c).map (·, cs)
  | [] => none

def scanBasic : Nat → List Char → Scan String
  -- Every round takes a character at least, and `rounds` is as many as there are characters.
  | 0, _, _ => none
  | rounds + 1, acc, cs =>
      match cs with
      | '"' :: cs => some (String.ofList acc.reverse, cs)
      | '\\' :: cs => do
          let (c, cs) ← scanEscape cs
          scanBasic rounds (c :: acc) cs
      | c :: cs => if isPlain c then scanBasic rounds (c :: acc) cs else none
      | [] => none

def scanLiteral (acc : List Char) : Scan String
  | '\'' :: cs => some (String.ofList acc.reverse, cs)
  | c :: cs => if isPlain c then scanLiteral (c :: acc) cs else none
  | [] => none

/-- A run of `count` quotes in a string of several lines: one or two of them belong to the string,
three end it, and up to two more before those three belong to the string. Gives how many belong to
it and, if it ends, how many are left over. -/
def splitQuotes (count : Nat) : Nat × Option Nat :=
  if count < 3 then (count, none) else (min (count - 3) 2, some (count - min count 5))

def scanContinuation? (cs : List Char) : Option (List Char) :=
  match skipBlanks cs with
  | '\n' :: cs => some (skipWhite cs)
  | '\r' :: '\n' :: cs => some (skipWhite cs)
  | _ => none
where
  skipWhite : List Char → List Char
    | '\r' :: '\n' :: cs => skipWhite cs
    | c :: cs => if isBlank c || c = '\n' then skipWhite cs else c :: cs
    | [] => []

def scanLines (quote : Char) : Nat → List Char → Scan String
  | 0, _, _ => none
  | rounds + 1, acc, cs =>
      match cs with
      | '\r' :: '\n' :: cs => scanLines quote rounds ('\n' :: acc) cs
      | '\n' :: cs => scanLines quote rounds ('\n' :: acc) cs
      | c :: cs =>
          if c = quote then
            let (inside, left) := splitQuotes ((c :: cs).takeWhile (· = quote)).length
            let acc := List.replicate inside quote ++ acc
            let rest := (c :: cs).dropWhile (· = quote)
            match left with
            | some left => some (String.ofList acc.reverse, List.replicate left quote ++ rest)
            | none => scanLines quote rounds acc rest
          else if c = '\\' && quote = '"' then
            match scanContinuation? cs with
            | some cs => scanLines quote rounds acc cs
            | none => do
                let (c, cs) ← scanEscape cs
                scanLines quote rounds (c :: acc) cs
          else if isPlain c then scanLines quote rounds (c :: acc) cs
          else none
      | [] => none

def skipFirstBreak : List Char → List Char
  -- A line break right after the opening quotes does not belong to the string.
  | '\n' :: cs => cs
  | '\r' :: '\n' :: cs => cs
  | cs => cs

def scanString : Scan String
  | '"' :: '"' :: '"' :: cs => scanLines '"' cs.length [] (skipFirstBreak cs)
  | '\'' :: '\'' :: '\'' :: cs => scanLines '\'' cs.length [] (skipFirstBreak cs)
  | '"' :: cs => scanBasic cs.length [] cs
  | '\'' :: cs => scanLiteral [] cs
  | _ => none

/-! ## Keys -/

def isBare (c : Char) : Bool :=
  c.isAlphanum || c = '-' || c = '_'

def scanName : Scan String
  | '"' :: cs => scanBasic cs.length [] cs
  | '\'' :: cs => scanLiteral [] cs
  | cs =>
      match cs.span isBare with
      | ([], _) => none
      | (name, cs) => some (String.ofList name, cs)

def scanNames : Nat → Key → Scan Key
  | 0, _, _ => none
  | rounds + 1, acc, cs => do
      let (name, cs) ← scanName (skipBlanks cs)
      match skipBlanks cs with
      | '.' :: cs => scanNames rounds (name :: acc) cs
      | cs => return (name :: acc, cs)

def scanKey (cs : List Char) : Option (Key × List Char) :=
  -- A key has at most 79 parts.
  match scanNames cs.length [] cs with
  | some (names, cs) => if names.length < 80 then some (names.reverse, cs) else none
  | none => none

end Tiling.Toml
