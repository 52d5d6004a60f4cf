import Tiling.Proofs.Digits
import Tiling.Toml.Parser

/-!
# Whole numbers in TOML

The decimal digits of a natural number at the end of a line are scanned as that number, if it fits
into 64 bits. They are not taken for the start of a date, a time or a float.
-/

namespace Tiling.Toml

open Digits (isDigit)

def EndsLine (rest : List Char) : Prop :=
  ∀ c ∈ rest.head?, c = '\n'

variable {ds rest : List Char} {n : Nat}

/-- Digits are scanned to the last of them. -/
theorem scanMoreDigits_append {acc : List Char} (hds : ∀ c ∈ ds, isDigit 10 c)
    (hrest : EndsLine rest) : scanMoreDigits 10 acc (ds ++ rest) = (acc.reverse ++ ds, rest) := by
  induction ds generalizing acc with
  | nil =>
    rw [List.nil_append, List.append_nil]
    cases rest with
    | nil => rfl
    | cons c rest =>
      cases hrest c rfl
      rfl
  | cons d ds ih =>
    have hd := hds d List.mem_cons_self
    have hmark : d ≠ '_' := fun heq => by simp [heq, isDigit, Digits.value?] at hd
    rw [List.cons_append, scanMoreDigits.eq_2 _ _ _ _ (by simp [hmark]), if_pos hd,
      ih fun c hc => hds c (List.mem_cons_of_mem d hc)]
    simp

theorem scanWhole_toDigits (n : Nat) (hrest : EndsLine rest) :
    scanWhole (Nat.toDigits 10 n ++ rest) = some (Nat.toDigits 10 n, rest) := by
  by_cases hn : n = 0
  · subst hn
    rfl
  · obtain ⟨d, ds, hdigits, hd⟩ := Digits.exists_digit n
    have hisDigit := Digits.isDigit_toDigits (n := n)
    have hzero : d ≠ '0' := fun heq => hn (Digits.eq_zero_of_head?_toDigits (by simp [hdigits, heq]))
    rw [hdigits, List.forall_mem_cons] at hisDigit
    rw [hdigits, List.cons_append, scanWhole.eq_2 _ (by simp [hzero]), scanDigits,
      if_pos hisDigit.1, scanMoreDigits_append hisDigit.2 hrest]
    rfl

/-- A number of a fixed length is scanned from the digits only. -/
theorem exists_scanFixed {count least greatest m : Nat} {cs : List Char}
    (hds : ∀ c ∈ ds, isDigit 10 c) (hrest : EndsLine rest)
    (h : scanFixed count least greatest (ds ++ rest) = some (m, cs)) :
    ∃ ds', cs = ds' ++ rest ∧ ∀ c ∈ ds', isDigit 10 c := by
  simp only [scanFixed] at h
  split at h
  · next hfixed =>
    cases h
    simp only [Bool.and_eq_true, decide_eq_true_iff, List.all_eq_true] at hfixed
    obtain ⟨⟨⟨hlength, hall⟩, -⟩, -⟩ := hfixed
    have hcount : count ≤ ds.length := by
      by_contra hlt
      cases rest with
      | nil => simp at hlength; omega
      | cons c rest =>
        cases hrest c rfl
        refine absurd (hall '\n' ?_) (by decide)
        rw [List.take_append, List.mem_append]
        refine .inr ?_
        obtain ⟨k, hk⟩ : ∃ k, count - ds.length = k + 1 := ⟨count - ds.length - 1, by omega⟩
        rw [hk]
        exact List.mem_cons_self
    exact ⟨ds.drop count, List.drop_append_of_le_length hcount,
      fun c hc => hds c (List.mem_of_mem_drop hc)⟩
  · cases h

theorem scanMark_append {mark : Char} (hline : mark ≠ '\n') (hdigit : ¬isDigit 10 mark)
    (hds : ∀ c ∈ ds, isDigit 10 c) (hrest : EndsLine rest) : scanMark mark (ds ++ rest) = none := by
  cases ds with
  | nil =>
    cases rest with
    | nil => rfl
    | cons c rest =>
      cases hrest c rfl
      exact if_neg hline.symm
  | cons d ds =>
    refine if_neg ?_
    rintro rfl
    exact hdigit (hds d List.mem_cons_self)

/-- No date or time begins with digits up to the end of a line. -/
theorem scanMoment_append (hds : ∀ c ∈ ds, isDigit 10 c) (hrest : EndsLine rest) :
    scanMoment (ds ++ rest) = none := by
  have hdate : scanDate? (ds ++ rest) = none := by
    rw [scanDate?]
    cases hyear : scanFixed 4 0 9999 (ds ++ rest) with
    | none => rfl
    | some found =>
      obtain ⟨ds', hcs, hds'⟩ := exists_scanFixed hds hrest hyear
      show (scanMark '-' found.2).bind _ = none
      rw [hcs, scanMark_append (by decide) (by decide) hds' hrest]
      rfl
  have htime : scanTime? (ds ++ rest) = none := by
    rw [scanTime?]
    cases hhour : scanFixed 2 0 23 (ds ++ rest) with
    | none => rfl
    | some found =>
      obtain ⟨ds', hcs, hds'⟩ := exists_scanFixed hds hrest hhour
      show (scanMark ':' found.2).bind _ = none
      rw [hcs, scanMark_append (by decide) (by decide) hds' hrest]
      rfl
  rw [scanMoment, hdate, htime]
  rfl

theorem scanScale_none (hrest : EndsLine rest) : scanScale rest = none := by
  cases rest with
  | nil => rfl
  | cons c rest =>
    cases hrest c rfl
    rfl

/-- A digit is none of the other characters that a scanner looks for. -/
theorem cons_ne_of_isDigit {d c : Char} (hd : d.isDigit) (hc : ¬c.isDigit) (cs tail : List Char) :
    d :: cs = c :: tail → False := by
  rintro ⟨⟩
  exact hc hd

theorem scanSign_digit {d : Char} (hd : d.isDigit) (cs : List Char) :
    scanSign (d :: cs) = (false, d :: cs) :=
  scanSign.eq_3 _ (cons_ne_of_isDigit hd (by decide) _) (cons_ne_of_isDigit hd (by decide) _)

theorem scanSpecial_digit {d : Char} (hd : d.isDigit) (cs : List Char) :
    scanSpecial (d :: cs) = none := by
  rw [scanSpecial, scanSign_digit hd]
  split
  · next heq => exact (cons_ne_of_isDigit hd (by decide) _ _ (Prod.mk.inj heq).2).elim
  · next heq => exact (cons_ne_of_isDigit hd (by decide) _ _ (Prod.mk.inj heq).2).elim
  · rfl

/-- The decimal digits of a number scan to it, as long as it fits. -/
theorem scanInteger_toDigits (n : Nat) (hrest : EndsLine rest) :
    scanInteger (Nat.toDigits 10 n ++ rest) = (ofInt? n).map (·, rest) := by
  have hwhole := scanWhole_toDigits n hrest
  have hvalue := Digits.toNat_toDigits n
  -- Only zero starts with a zero, and no mark of a base follows on it.
  have hbase {mark : Char} (hmark : mark ≠ '\n') (cs : List Char) :
      Nat.toDigits 10 n ++ rest = '0' :: mark :: cs → False := by
    intro heq
    have hzero : n = 0 := by
      obtain ⟨d, ds, hdigits, -⟩ := Digits.exists_digit n
      rw [hdigits, List.cons_append] at heq
      exact Digits.eq_zero_of_head?_toDigits (by rw [hdigits, (List.cons.inj heq).1]; rfl)
    subst hzero
    have hmore : rest = mark :: cs := (List.cons.inj heq).2
    exact hmark (hrest mark (by rw [hmore]; rfl))
  rw [scanInteger.eq_4 _ (hbase (by decide)) (hbase (by decide)) (hbase (by decide))]
  obtain ⟨d, ds, hdigits, hd⟩ := Digits.exists_digit n
  rw [hdigits] at hwhole hvalue ⊢
  rw [List.cons_append] at hwhole ⊢
  have hsigned : signed false (Digits.toNat 10 (d :: ds)) = n := by
    rw [hvalue]
    rfl
  rw [scanSign_digit hd]
  dsimp only
  rw [hwhole, Option.bind_eq_bind, Option.bind_some, hsigned]
  exact (Option.map_eq_bind ..).symm

/-- The decimal digits of a natural number are scanned as that number, if it fits. -/
theorem scanNumber_toDigits (n : Nat) (hrest : EndsLine rest) :
    scanNumber (Nat.toDigits 10 n ++ rest) = (ofInt? n).map (·, rest) := by
  have hwhole := scanWhole_toDigits n hrest
  have hinteger := scanInteger_toDigits n hrest
  obtain ⟨d, ds, hdigits, hd⟩ := Digits.exists_digit n
  rw [hdigits, List.cons_append] at hwhole hinteger ⊢
  have hfinite : scanFinite (d :: (ds ++ rest)) = none := by
    simp [scanFinite, scanSign_digit hd, hwhole, scanScale_none hrest]
  rw [scanNumber, hfinite, scanSpecial_digit hd, hinteger]

theorem scanValue_toDigits (depth n : Nat) (hrest : EndsLine rest) :
    scanValue depth (Nat.toDigits 10 n ++ rest) = (ofInt? n).map (·, rest) := by
  have hmoment := scanMoment_append (Digits.isDigit_toDigits (n := n)) hrest
  have hnumber := scanNumber_toDigits n hrest
  obtain ⟨d, ds, hdigits, hd⟩ := Digits.exists_digit n
  rw [hdigits, List.cons_append] at hmoment hnumber ⊢
  have hne {c : Char} (hc : ¬c.isDigit) := cons_ne_of_isDigit hd hc (ds ++ rest)
  have hsimple : scanSimple (d :: (ds ++ rest)) = (ofInt? n).map (·, rest) := by
    rw [scanSimple.eq_5 _ (hne (by decide)) (hne (by decide)) (fun _ => hne (by decide) _)
      fun _ => hne (by decide) _, hmoment, hnumber]
  cases depth with
  | zero => rw [scanValue, hsimple]
  | succ depth => rw [scanValue.eq_4 _ _ (hne (by decide)) (hne (by decide)), hsimple]

theorem skipBlanks_toDigits (n : Nat) :
    skipBlanks (Nat.toDigits 10 n) = Nat.toDigits 10 n := by
  obtain ⟨d, ds, hdigits, hd⟩ := Digits.exists_digit n
  have hblank : ¬isBlank d := by
    simp only [isBlank, Bool.or_eq_true, decide_eq_true_eq]
    rintro (rfl | rfl) <;> cases hd
  rw [hdigits, skipBlanks, List.dropWhile_cons_of_neg hblank]

end Tiling.Toml
