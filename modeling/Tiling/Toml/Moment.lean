import Tiling.Toml.Text

/-!
# The dates and times of TOML

A date, a time of day, or both with or without an offset. What they stand for is not kept, but they
have to exist in the calendar and on the clock.
-/

namespace Tiling.Toml

def scanFixed (count least greatest : Nat) (cs : List Char) : Option (Nat × List Char) :=
  let digits := cs.take count
  let n := Digits.toNat 10 digits
  if digits.length = count && digits.all (Digits.isDigit 10) && least ≤ n && n ≤ greatest then
    some (n, cs.drop count)
  else none

def scanMark (mark : Char) : List Char → Option (List Char)
  | c :: cs => if c = mark then some cs else none
  | [] => none

def isLeapYear (year : Nat) : Bool :=
  year % 4 = 0 && (year % 100 ≠ 0 || year % 400 = 0)

def daysInMonth (year month : Nat) : Nat :=
  if month = 2 then if isLeapYear year then 29 else 28
  else if month = 4 || month = 6 || month = 9 || month = 11 then 30
  else 31

def scanDate? (cs : List Char) : Option (List Char) := do
  let (year, cs) ← scanFixed 4 0 9999 cs
  let cs ← scanMark '-' cs
  let (month, cs) ← scanFixed 2 1 12 cs
  let cs ← scanMark '-' cs
  let (_, cs) ← scanFixed 2 1 (daysInMonth year month) cs
  return cs

def skipFraction : List Char → List Char
  | '.' :: c :: cs =>
      if Digits.isDigit 10 c then cs.dropWhile (Digits.isDigit 10) else '.' :: c :: cs
  | cs => cs

def scanTime? (cs : List Char) : Option (List Char) := do
  -- A time of day may be in a leap second.
  let (_, cs) ← scanFixed 2 0 23 cs
  let cs ← scanMark ':' cs
  let (_, cs) ← scanFixed 2 0 59 cs
  let cs ← scanMark ':' cs
  let (_, cs) ← scanFixed 2 0 60 cs
  return skipFraction cs

def skipOffset (cs : List Char) : List Char :=
  match cs with
  | 'Z' :: rest | 'z' :: rest => rest
  | '+' :: rest | '-' :: rest => (hours? rest).getD cs
  | _ => cs
where
  hours? (cs : List Char) : Option (List Char) := do
    let (_, cs) ← scanFixed 2 0 23 cs
    let cs ← scanMark ':' cs
    let (_, cs) ← scanFixed 2 0 59 cs
    return cs

def skipTimeOfDate (cs : List Char) : List Char :=
  match cs with
  | 'T' :: rest | 't' :: rest | ' ' :: rest => ((scanTime? rest).map skipOffset).getD cs
  | _ => cs

def scanMoment (cs : List Char) : Option (Toml × List Char) :=
  match scanDate? cs with
  | some rest => some (.moment, skipTimeOfDate rest)
  | none => (scanTime? cs).map (.moment, ·)

end Tiling.Toml
