/-!
# Escaped code units

Text escapes may name a character by one 16-bit code unit, or by a pair of surrogates for a
character above `U+FFFF`. A surrogate without its partner names no character.
-/

namespace Tiling

/-- What a string literal is made of. -/
inductive Piece where
  | char (c : Char)
  | unit (n : Nat)
deriving DecidableEq, Repr

namespace Piece

def isHighSurrogate (n : Nat) : Bool :=
  0xD800 ≤ n && n < 0xDC00

def isLowSurrogate (n : Nat) : Bool :=
  0xDC00 ≤ n && n < 0xE000

def pair (high low : Nat) : Char :=
  Char.ofNat (0x10000 + 0x400 * (high - 0xD800) + (low - 0xDC00))

def assemble (acc : List Char) : List Piece → Option (List Char)
  -- An unpaired surrogate names no character.
  | [] => some acc
  | char c :: rest => assemble (c :: acc) rest
  | unit high :: unit low :: rest =>
      if isHighSurrogate high && isLowSurrogate low then assemble (pair high low :: acc) rest
      else if isHighSurrogate high || isLowSurrogate high then none
      else assemble (Char.ofNat high :: acc) (unit low :: rest)
  | unit n :: rest =>
      if isHighSurrogate n || isLowSurrogate n then none else assemble (Char.ofNat n :: acc) rest

def text? (pieces : List Piece) : Option String :=
  (assemble [] pieces).map fun cs => String.ofList cs.reverse

end Piece

end Tiling
