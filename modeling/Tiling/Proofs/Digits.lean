import Tiling.Text.Digits
import Mathlib.Data.List.Basic
import Mathlib.Tactic.IntervalCases

/-!
# Digits that write a number

The decimal digits that a number is written in are those that it is read from.
-/

namespace Tiling.Digits

theorem value?_of_isDigit {c : Char} (h : c.isDigit) : value? c = some (c.toNat - '0'.toNat) := by
  have hdigit : '0' ≤ c ∧ c ≤ '9' := by
    simpa [Char.isDigit, Char.le_def] using h
  rw [value?, if_pos (by simpa using hdigit)]

theorem isDigit_iff {c : Char} : isDigit 10 c ↔ c.isDigit := by
  constructor
  · intro h
    rw [isDigit, value?] at h
    split at h
    · next hc => simpa [Char.isDigit, Char.le_def] using hc
    · split at h
      · simp at h
      · split at h <;> simp at h
  · intro h
    have hle : c.toNat ≤ 57 := by
      rw [Char.isDigit, Bool.and_eq_true, decide_eq_true_iff, decide_eq_true_iff] at h
      exact h.2
    rw [isDigit, value?_of_isDigit h, Option.any_some, decide_eq_true_iff]
    show c.toNat - 48 < 10
    omega

/-- Writing a number in decimal and reading it back gives the number. -/
theorem toNat_toDigits (n : Nat) : toNat 10 (Nat.toDigits 10 n) = n := by
  have hstep : ∀ m, ∀ c ∈ Nat.toDigits 10 n,
      (value? c).elim m (10 * m + ·) = 10 * m + (c.toNat - '0'.toNat) := by
    intro m c hc
    rw [value?_of_isDigit (Nat.isDigit_of_mem_toDigits (by omega) (by omega) hc)]
    rfl
  rw [toNat, List.foldl_ext _ _ _ hstep, ← Nat.ofDigitChars_eq_foldl,
    Nat.ofDigitChars_ten_toDigits]

/-- Only zero is written with a zero in front. -/
theorem eq_zero_of_head?_toDigits {n : Nat} (h : (Nat.toDigits 10 n).head? = some '0') : n = 0 := by
  induction n using Nat.strongRecOn with
  | ind n ih =>
    by_cases hn : n < 10
    · rw [Nat.toDigits_of_lt_base hn, List.head?_cons, Option.some.injEq] at h
      exact Nat.digitChar_eq_zero.mp h
    · rw [Nat.toDigits_of_base_le (by norm_num) (by omega),
        List.head?_append_of_ne_nil _ Nat.toDigits_ne_nil] at h
      have hzero := ih (n / 10) (by omega) h
      omega

theorem isDigit_toDigits {n : Nat} : ∀ c ∈ Nat.toDigits 10 n, isDigit 10 c := fun c hc =>
  isDigit_iff.mpr (Nat.isDigit_of_mem_toDigits (by omega) (by omega) hc)

/-- No number is written without digits. -/
theorem exists_digit (n : Nat) : ∃ d ds, Nat.toDigits 10 n = d :: ds ∧ d.isDigit := by
  obtain ⟨d, ds, hdigits⟩ := List.exists_cons_of_ne_nil (Nat.toDigits_ne_nil (b := 10) (n := n))
  have hmem : d ∈ Nat.toDigits 10 n := hdigits ▸ List.mem_cons_self
  exact ⟨d, ds, hdigits, Nat.isDigit_of_mem_toDigits (by omega) (by omega) hmem⟩

/-- The ten digits one by one, for what is matched with other characters first. -/
theorem exists_digitChar {c : Char} (h : c.isDigit) : ∃ k < 10, c = Nat.digitChar k := by
  rw [Char.isDigit, Bool.and_eq_true, decide_eq_true_iff, decide_eq_true_iff] at h
  have hlow : 48 ≤ c.toNat := h.1
  have hhigh : c.toNat ≤ 57 := h.2
  have hc := Char.ofNat_toNat c
  refine ⟨c.toNat - 48, by omega, ?_⟩
  generalize c.toNat = n at *
  rw [← hc]
  interval_cases n <;> rfl

end Tiling.Digits
