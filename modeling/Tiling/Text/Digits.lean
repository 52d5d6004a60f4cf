/-!
# Digits

Digits of the bases up to sixteen, and the numbers that they write.
-/

namespace Tiling.Digits

def value? (c : Char) : Option Nat :=
  if '0' ≤ c && c ≤ '9' then some (c.toNat - '0'.toNat)
  else if 'a' ≤ c && c ≤ 'f' then some (c.toNat - 'a'.toNat + 10)
  else if 'A' ≤ c && c ≤ 'F' then some (c.toNat - 'A'.toNat + 10)
  else none

def isDigit (base : Nat) (c : Char) : Bool :=
  (value? c).any (· < base)

def toNat (base : Nat) (cs : List Char) : Nat :=
  -- Other characters between the digits are passed over.
  cs.foldl (fun n c => (value? c).elim n (base * n + ·)) 0

end Tiling.Digits
