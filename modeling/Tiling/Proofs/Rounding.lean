import Mathlib

/-!
# Rounding to single precision

A result is rounded to the nearest single precision number, so it never passes a number that is
representable: what is at most a representable number is at most that number after rounding too, and
what is at least one stays at least that. In particular a representable result is exact.
-/

namespace Tiling.Rounding

open Float.Model (Format totalExponent)
open Float.Model.UnpackedFloat

/-! ## 1. Significands with what is left over -/

/-- Whether an extended significand stands for `x`: the round bit counts one half, and the sticky
bit tells whether anything is left over beyond that. -/
def Denotes (em : ExtendedMantissa) (x : ℚ) : Prop :=
  ∃ d : ℚ, 0 ≤ d ∧ d < 1 / 2 ∧ (em.stickyBit = true ↔ d ≠ 0) ∧
    x = em.mantissa + em.roundBit.toNat / 2 + d

theorem denotes_exact (m : ℕ) : Denotes (.ofMantissaAndAccuracy m .exact) m :=
  ⟨0, le_refl 0, by norm_num, by simp [ExtendedMantissa.ofMantissaAndAccuracy],
    by simp [ExtendedMantissa.ofMantissaAndAccuracy]⟩

/-- The quotient of a division with what the remainder tells. -/
theorem denotes_div (n d : ℕ) (hd : 0 < d) :
    Denotes (.ofMantissaAndAccuracy (n / d) (accuracyOfFraction (n % d) d)) (n / d : ℚ) := by
  have hd' : (0 : ℚ) < d := by exact_mod_cast hd
  have hquotient : (n / d : ℚ) = (n / d : ℕ) + (n % d : ℕ) / d := by
    have hdiv : (n : ℚ) = d * (n / d : ℕ) + (n % d : ℕ) := by
      exact_mod_cast (Nat.div_add_mod n d).symm
    rw [div_eq_iff hd'.ne', add_mul, div_mul_cancel₀ _ hd'.ne', mul_comm]
    exact hdiv
  rw [hquotient, accuracyOfFraction]
  by_cases hzero : n % d = 0
  · rw [if_pos hzero, hzero, Nat.cast_zero, zero_div, add_zero]
    exact denotes_exact _
  have hpos : (0 : ℚ) < (n % d : ℕ) := by exact_mod_cast Nat.pos_of_ne_zero hzero
  have hlt : ((n % d : ℕ) : ℚ) / d < 1 := by
    rw [div_lt_one hd']
    exact_mod_cast Nat.mod_lt n hd
  have hfrac : (0 : ℚ) < (n % d : ℕ) / d := div_pos hpos hd'
  rw [if_neg hzero]
  rcases lt_trichotomy (2 * (n % d)) d with h | h | h
  · rw [compare_lt_iff_lt.mpr h]
    have hhalf : ((n % d : ℕ) : ℚ) / d < 1 / 2 := by
      rw [div_lt_div_iff₀ hd' two_pos, one_mul, mul_comm]
      exact_mod_cast h
    exact ⟨_, hfrac.le, hhalf, by simp [ExtendedMantissa.ofMantissaAndAccuracy, hfrac.ne'],
      by simp [ExtendedMantissa.ofMantissaAndAccuracy]⟩
  · rw [compare_eq_iff_eq.mpr h]
    have hhalf : ((n % d : ℕ) : ℚ) / d = 1 / 2 := by
      rw [div_eq_div_iff hd'.ne' two_ne_zero, one_mul, mul_comm]
      exact_mod_cast h
    exact ⟨0, le_refl 0, by norm_num, by simp [ExtendedMantissa.ofMantissaAndAccuracy],
      by simp [ExtendedMantissa.ofMantissaAndAccuracy, hhalf]⟩
  · rw [compare_gt_iff_gt.mpr h]
    have hhalf : (1 : ℚ) / 2 < ((n % d : ℕ) : ℚ) / d := by
      rw [div_lt_div_iff₀ two_pos hd', one_mul, mul_comm]
      exact_mod_cast h
    refine ⟨((n % d : ℕ) : ℚ) / d - 1 / 2, by linarith, by linarith, ?_, ?_⟩
    · simp only [ExtendedMantissa.ofMantissaAndAccuracy, true_iff]
      linarith
    · simp only [ExtendedMantissa.ofMantissaAndAccuracy, Bool.toNat_true, Nat.cast_one]
      ring

theorem Denotes.bounds {em : ExtendedMantissa} {x : ℚ} (h : Denotes em x) :
    em.mantissa ≤ x ∧ x < em.mantissa + 1 := by
  obtain ⟨d, h0, h1, -, rfl⟩ := h
  cases em.roundBit <;> simp only [Bool.toNat_false, Bool.toNat_true] <;> constructor <;>
    norm_num <;> linarith

/-- The bit that is shifted out goes in front of what was left over before. -/
theorem Denotes.shiftRightOne {em : ExtendedMantissa} {x : ℚ} (h : Denotes em x) :
    Denotes em.shiftRightOne (x / 2) := by
  obtain ⟨d, h0, h1, hsticky, rfl⟩ := h
  obtain ⟨m, r, s⟩ := em
  have hm : (m : ℚ) = 2 * (m / 2 : ℕ) + (m % 2 : ℕ) := by
    exact_mod_cast (Nat.div_add_mod m 2).symm
  have hbit : (m % 2 != 0).toNat = m % 2 := by
    rcases Nat.mod_two_eq_zero_or_one m with h | h <;> rw [h] <;> rfl
  refine ⟨(r.toNat / 2 + d) / 2, by positivity, ?_, ?_, ?_⟩
  · cases r <;> simp only [Bool.toNat_false, Bool.toNat_true] <;> norm_num <;> linarith
  · cases r
    · simpa [ExtendedMantissa.shiftRightOne] using hsticky
    · simp only [ExtendedMantissa.shiftRightOne, Bool.true_or, Bool.toNat_true, true_iff]
      positivity
  · show ((m : ℚ) + r.toNat / 2 + d) / 2 = (m / 2 : ℕ) + (m % 2 != 0).toNat / 2 + _
    rw [hbit, hm]
    ring

/-- A shift to the right divides the number denoted. -/
theorem Denotes.shiftRight {em : ExtendedMantissa} {x : ℚ} (h : Denotes em x) (k : ℕ) :
    Denotes (em >>> k) (x / 2 ^ k) := by
  induction k with
  | zero =>
    rw [pow_zero, div_one]
    exact h
  | succ k ih =>
    rw [pow_succ, ← div_div]
    exact ih.shiftRightOne

theorem mantissa_le_roundedMantissa (em : ExtendedMantissa) : em.mantissa ≤ em.roundedMantissa := by
  obtain ⟨m, r, s⟩ := em
  cases r <;> cases s <;>
    simp [ExtendedMantissa.roundedMantissa, ExtendedMantissa.accuracy, Accuracy.roundToNearestEven]

/-- Rounding does not pass a whole number. -/
theorem Denotes.roundedMantissa_le {em : ExtendedMantissa} {x : ℚ} (h : Denotes em x) {n : ℕ}
    (hn : x ≤ n) : em.roundedMantissa ≤ n := by
  have hle : em.mantissa ≤ n := by exact_mod_cast h.bounds.1.trans hn
  obtain ⟨d, h0, h1, hsticky, rfl⟩ := h
  obtain ⟨m, r, s⟩ := em
  -- where anything is left over, the next whole number is not passed either
  have hlt : (r || s) = true → m + 1 ≤ n := by
    intro hrest
    have hpos : (0 : ℚ) < r.toNat / 2 + d := by
      cases r with
      | true => simp only [Bool.toNat_true]; positivity
      | false =>
        have hd : d ≠ 0 := hsticky.mp hrest
        simpa using lt_of_le_of_ne h0 hd.symm
    have hm : (m : ℚ) < n := by linarith
    exact_mod_cast hm
  cases r <;> cases s <;>
    simp only [ExtendedMantissa.roundedMantissa, ExtendedMantissa.accuracy,
      Accuracy.roundToNearestEven]
  · exact hle
  · exact hle
  · have := hlt rfl
    omega
  · exact hlt rfl

/-- Rounding never falls below a whole number that the value reaches. -/
theorem Denotes.le_roundedMantissa {em : ExtendedMantissa} {x : ℚ} (h : Denotes em x) {n : ℕ}
    (hn : n ≤ x) : n ≤ em.roundedMantissa := by
  have hlt : n < em.mantissa + 1 := by exact_mod_cast hn.trans_lt h.bounds.2
  exact (Nat.lt_succ_iff.mp hlt).trans (mantissa_le_roundedMantissa em)

/-- What is left over of a number is determined by the number. -/
theorem Denotes.unique {em em' : ExtendedMantissa} {x : ℚ} (h : Denotes em x)
    (h' : Denotes em' x) : em = em' := by
  have hm : em.mantissa = em'.mantissa := by
    have hlt : em.mantissa < em'.mantissa + 1 := by exact_mod_cast h.bounds.1.trans_lt h'.bounds.2
    have hlt' : em'.mantissa < em.mantissa + 1 := by exact_mod_cast h'.bounds.1.trans_lt h.bounds.2
    omega
  obtain ⟨d, h0, h1, hsticky, hx⟩ := h
  obtain ⟨d', h0', h1', hsticky', hx'⟩ := h'
  obtain ⟨m, r, s⟩ := em
  obtain ⟨m', r', s'⟩ := em'
  obtain rfl : m = m' := hm
  have hrest : (r.toNat / 2 + d : ℚ) = r'.toNat / 2 + d' := by
    simp only at hx hx'
    linarith
  obtain rfl : r = r' := by
    cases r <;> cases r' <;> simp only [Bool.toNat_false, Bool.toNat_true] at hrest <;>
      first | rfl | (exfalso; norm_num at hrest; linarith)
  obtain rfl : d = d' := add_left_cancel hrest
  obtain rfl : s = s' := Bool.eq_iff_iff.mpr (hsticky.trans hsticky'.symm)
  rfl

/-! ## 2. Rounding to the format -/

/-- A significand of at most 24 bits, or the one after them, at an exponent that the format has. No
exponent is too high here. -/
def Representable (b : ℚ) : Prop :=
  ∃ (i : ℕ) (k : ℤ), i ≤ 2 ^ 24 ∧ -149 ≤ k ∧ b = i * 2 ^ k

/-- A significand and an exponent as a number of the format has them: all bits are used, or the
exponent is the least one. -/
structure Canonical (m : ℕ) (e : ℤ) : Prop where
  lt : m < 2 ^ 24
  least_le : -149 ≤ e
  full : 2 ^ 23 ≤ m ∨ e = -149

/-- The number `v` as `y` units of an exponent, with as many bits before the point as the format
has, or at its least exponent. -/
structure Fits (v : ℚ) (t : ℤ) (y : ℚ) : Prop where
  value : v = y * 2 ^ t
  lt : y < (2 ^ 24 : ℕ)
  least_le : -149 ≤ t
  full : ((2 ^ 23 : ℕ) : ℚ) ≤ y ∨ t = -149

/-- A number of units at a higher exponent is the larger number. -/
theorem Fits.le {v v' y y' : ℚ} {t t' : ℤ} (h : Fits v t y) (h' : Fits v' t' y') (hv : v' ≤ v) :
    t' ≤ t := by
  by_contra hlt
  have hleast := h.least_le
  have hfull := h'.full.resolve_right (by omega)
  have hpow : (0 : ℚ) < 2 ^ t := by positivity
  refine absurd hv (not_le.mpr ?_)
  calc v = y * 2 ^ t := h.value
    _ < (2 ^ 24 : ℕ) * 2 ^ t := mul_lt_mul_of_pos_right h.lt hpow
    _ = (2 ^ 23 : ℕ) * 2 ^ (t + 1) := by rw [zpow_add_one₀ two_ne_zero]; push_cast; ring
    _ ≤ y' * 2 ^ t' := mul_le_mul hfull (zpow_le_zpow_right₀ one_le_two (by omega))
        (by positivity) ((Nat.cast_nonneg _).trans hfull)
    _ = v' := h'.value.symm

/-- A number fits one exponent and one mantissa. -/
theorem Fits.unique {v y y' : ℚ} {t t' : ℤ} (h : Fits v t y) (h' : Fits v t' y') :
    t = t' ∧ y = y' := by
  obtain rfl : t = t' := le_antisymm (h'.le h le_rfl) (h.le h' le_rfl)
  have hpow : (2 : ℚ) ^ t ≠ 0 := by positivity
  exact ⟨rfl, mul_right_cancel₀ hpow (h.value.symm.trans h'.value)⟩

theorem Canonical.fits {m : ℕ} {e : ℤ} (h : Canonical m e) : Fits (m * 2 ^ e) e m :=
  ⟨rfl, by exact_mod_cast h.lt, h.least_le, h.full.imp_left fun hm => by exact_mod_cast hm⟩

/-- The larger exponent goes with the larger number: it is not the least one, so its significand
uses all bits. -/
theorem Canonical.lt_of_lt {m n : ℕ} {e f : ℤ} (hm : Canonical m e) (hn : Canonical n f)
    (h : e < f) : (m * 2 ^ e : ℚ) < n * 2 ^ f :=
  not_le.mp fun hle => absurd (hm.fits.le hn.fits hle) (not_le.mpr h)

/-- A number has one canonical form. -/
theorem Canonical.unique {m n : ℕ} {e f : ℤ} (hm : Canonical m e) (hn : Canonical n f)
    (h : (m * 2 ^ e : ℚ) = n * 2 ^ f) : m = n ∧ e = f := by
  obtain ⟨he, hvalue⟩ := hm.fits.unique (h ▸ hn.fits)
  exact ⟨by exact_mod_cast hvalue, he⟩

/-- The exponents of the format are those of the numbers below the overflow. -/
theorem Canonical.lt_overflow_iff {m : ℕ} {e : ℤ} (h : Canonical m e) :
    (m * 2 ^ e : ℚ) < 2 ^ 128 ↔ e ≤ 104 := by
  constructor
  · intro hmax
    by_contra hno
    have hfull : (2 : ℚ) ^ 23 ≤ m := by exact_mod_cast h.full.resolve_right (by omega)
    have hexp : (2 : ℚ) ^ (105 : ℤ) ≤ 2 ^ e := zpow_le_zpow_right₀ one_le_two (by omega)
    refine absurd hmax (not_lt.mpr ?_)
    calc (2 : ℚ) ^ 128 = 2 ^ 23 * 2 ^ (105 : ℤ) := by norm_num
      _ ≤ (m : ℚ) * 2 ^ e := by gcongr
  · intro he
    have hm : (m : ℚ) < 2 ^ 24 := by exact_mod_cast h.lt
    calc (m : ℚ) * 2 ^ e ≤ m * 2 ^ (104 : ℤ) := by
          gcongr
          exact one_le_two
      _ < 2 ^ 24 * 2 ^ (104 : ℤ) := by gcongr
      _ = 2 ^ 128 := by norm_num

def ofParts (s : Sign) (m : ℕ) (e : ℤ) : Float.Model.UnpackedFloat :=
  if h : m = 0 then .zero s else .finite s m e (Nat.pos_of_ne_zero h)

theorem targetExponent_eq (m : ℕ) (e : ℤ) :
    Format.binary32.targetExponent (totalExponent m e) = max (m.log2 + 1 + e - 24) (-149) := by
  rw [Format.targetExponent, totalExponent]
  rfl

/-- After rounding at most one more bit has to go, and that bit is zero. -/
theorem carry {m : ℕ} {e : ℤ} (hm : m ≤ 2 ^ 24) (he : -149 ≤ e) (hfull : 2 ^ 23 ≤ m ∨ e = -149) :
    ∃ m' e', Canonical m' e' ∧ (m' * 2 ^ e' : ℚ) = m * 2 ^ e ∧
      (shiftToTargetExponent Format.binary32 m e .exact).1.mantissa = m' ∧
      (shiftToTargetExponent Format.binary32 m e .exact).2 = e' := by
  rw [shiftToTargetExponent, targetExponent_eq, shiftToExponent]
  rcases hm.lt_or_eq with hlt | rfl
  · have hlog : m.log2 < 24 := by
      rcases Nat.eq_zero_or_pos m with rfl | hpos
      · decide
      · exact (Nat.log2_lt hpos.ne').mpr hlt
    have hshift : (max ((m.log2 : ℤ) + 1 + e - 24) (-149) - e).toNat = 0 := by omega
    rw [hshift]
    exact ⟨m, e, ⟨hlt, he, hfull⟩, rfl, rfl, add_zero e⟩
  · have hshift : (max (((2 ^ 24 : ℕ).log2 : ℤ) + 1 + e - 24) (-149) - e).toNat = 1 := by
      rw [Nat.log2_two_pow]
      omega
    rw [hshift]
    refine ⟨2 ^ 23, e + 1, ⟨by norm_num, by omega, .inl le_rfl⟩, ?_, rfl, rfl⟩
    rw [zpow_add₀ two_ne_zero]
    push_cast
    ring

/-- Whether `w` passes no representable number on the way from `v`. -/
def RoundsTo (v w : ℚ) : Prop :=
  ∀ b, Representable b → (v ≤ b → w ≤ b) ∧ (b ≤ v → b ≤ w)

/-- A number that is representable rounds to itself. -/
theorem RoundsTo.eq {v w : ℚ} (h : RoundsTo v w) (hv : Representable v) : w = v :=
  le_antisymm ((h v hv).1 le_rfl) ((h v hv).2 le_rfl)

/-- A representable number is a whole number of units of any exponent, or it has no more than 23
bits there. -/
theorem Representable.units {b : ℚ} (h : Representable b) (t : ℤ) :
    (∃ n : ℕ, b = n * 2 ^ t) ∨ -149 < t ∧ b ≤ (2 ^ 23 : ℕ) * 2 ^ t := by
  obtain ⟨i, j, hi, hj, rfl⟩ := h
  by_cases hjt : t ≤ j
  · refine .inl ⟨i * 2 ^ (j - t).toNat, ?_⟩
    obtain ⟨k, hk⟩ := Int.eq_ofNat_of_zero_le (sub_nonneg.mpr hjt)
    have hj : j = k + t := by omega
    rw [hk, Int.toNat_natCast, hj, zpow_add₀ two_ne_zero, zpow_natCast]
    push_cast
    ring
  · refine .inr ⟨by omega, ?_⟩
    have hi' : (i : ℚ) ≤ 2 ^ 24 := by exact_mod_cast hi
    have hpow : (2 : ℚ) ^ j ≤ 2 ^ (t - 1) := zpow_le_zpow_right₀ one_le_two (by omega)
    calc (i : ℚ) * 2 ^ j ≤ 2 ^ 24 * 2 ^ (t - 1) := by gcongr
      _ = (2 ^ 23 : ℕ) * 2 ^ t := by
        rw [zpow_sub₀ two_ne_zero]
        push_cast
        ring

/-- The significand is cut to at most 24 bits, and the exponent goes up by the bits that go. -/
theorem fits_shift {m : ℕ} {e : ℤ} {x : ℚ} {k : ℕ} (hlt : x < m + 1)
    (hle : (m : ℚ) ≤ x) (hfine : 2 ^ 23 ≤ m ∨ e ≤ -149)
    (hk : k = (max ((m.log2 : ℤ) + 1 + e - 24) (-149) - e).toNat) :
    Fits (x * 2 ^ e) (e + k) (x / 2 ^ k) := by
  have hpow : (0 : ℚ) < 2 ^ k := by positivity
  have hlog : 2 ^ 23 ≤ m → 23 ≤ m.log2 := fun h => (Nat.le_log2 (by omega)).mpr h
  refine ⟨?_, ?_, by omega, ?_⟩
  · rw [zpow_add₀ two_ne_zero, zpow_natCast, mul_comm (2 ^ e : ℚ), ← mul_assoc,
      div_mul_cancel₀ _ hpow.ne']
  · have hup : m + 1 ≤ 2 ^ (24 + k) := by
      refine (Nat.lt_log2_self (n := m)).trans_le (Nat.pow_le_pow_right two_pos ?_)
      omega
    have hup' : (m : ℚ) + 1 ≤ 2 ^ (24 + k) := by exact_mod_cast hup
    rw [div_lt_iff₀ hpow, Nat.cast_pow, Nat.cast_ofNat, ← pow_add]
    exact hlt.trans_le hup'
  · by_cases hleast : e + k = -149
    · exact .inr hleast
    · have hm : 2 ^ 23 ≤ m := by
        by_contra hno
        have hcoarse := hfine.resolve_left hno
        have hsmall : m.log2 < 23 := by
          rcases Nat.eq_zero_or_pos m with rfl | hpos
          · decide
          · exact (Nat.log2_lt hpos.ne').mpr (Nat.lt_of_not_le hno)
        omega
      have hbits : 23 + k = m.log2 := by
        have := hlog hm
        omega
      have hdown : 2 ^ (23 + k) ≤ m := hbits ▸ Nat.log2_self_le (by omega)
      have hdown' : (2 : ℚ) ^ (23 + k) ≤ m := by exact_mod_cast hdown
      refine .inl ?_
      rw [le_div_iff₀ hpow, Nat.cast_pow, Nat.cast_ofNat, ← pow_add]
      exact hdown'.trans hle

/-- What the number `v` is rounded from: a significand with what is left over beside it, as fine as
the format at least. -/
structure Prepared (v : ℚ) (m : ℕ) (e : ℤ) (a : Accuracy) : Prop where
  denotes : ∃ x, Denotes (.ofMantissaAndAccuracy m a) x ∧ v = x * 2 ^ e
  fine : 2 ^ 23 ≤ m ∨ e ≤ -149

theorem prepared_exact {m : ℕ} {e : ℤ} (hfine : 2 ^ 23 ≤ m ∨ e ≤ -149) :
    Prepared (m * 2 ^ e) m e .exact :=
  ⟨⟨m, denotes_exact m, rfl⟩, hfine⟩

variable {v : ℚ} {m : ℕ} {e : ℤ} {a : Accuracy}

/-- The first shift of a rounding keeps the number, and what the format has no bits for is left
over. -/
theorem Prepared.exists_shift (h : Prepared v m e a) :
    ∃ em t y, shiftToTargetExponent Format.binary32 m e a = (em, t) ∧ Denotes em y ∧
      Fits v t y := by
  obtain ⟨x, hx, rfl⟩ := h.denotes
  obtain ⟨hle, hlt⟩ := hx.bounds
  have hmantissa : (ExtendedMantissa.ofMantissaAndAccuracy m a).mantissa = m := by
    rcases a with _ | _ | _ | _ <;> rfl
  rw [hmantissa] at hle hlt
  generalize hk : (max ((m.log2 : ℤ) + 1 + e - 24) (-149) - e).toNat = k
  refine ⟨_, _, _, ?_, hx.shiftRight k, fits_shift hlt hle h.fine hk.symm⟩
  rw [shiftToTargetExponent, targetExponent_eq, shiftToExponent, hk]

/-- Rounding looks at nothing but the number that is rounded. -/
theorem Prepared.roundWithAccuracy_congr {m' : ℕ} {e' : ℤ} {a' : Accuracy}
    (h : Prepared v m e a) (h' : Prepared v m' e' a') (s : Sign) :
    roundWithAccuracy Format.binary32 s m e a = roundWithAccuracy Format.binary32 s m' e' a' := by
  obtain ⟨em, t, y, hshift, hem, hfits⟩ := h.exists_shift
  obtain ⟨em', t', y', hshift', hem', hfits'⟩ := h'.exists_shift
  obtain ⟨rfl, rfl⟩ := hfits.unique hfits'
  obtain rfl := hem.unique hem'
  rw [roundWithAccuracy, roundWithAccuracy, hshift, hshift']

/-- Rounding gives a number of the format, and passes no representable number. -/
theorem Prepared.exists_roundWithAccuracy (h : Prepared v m e a) (s : Sign) :
    ∃ m' e', roundWithAccuracy Format.binary32 s m e a = ofParts s m' e' ∧ Canonical m' e' ∧
      RoundsTo v (m' * 2 ^ e') := by
  obtain ⟨em, t, y, hshift, hy, hfits⟩ := h.exists_shift
  have hm₁ : em.roundedMantissa ≤ 2 ^ 24 := hy.roundedMantissa_le hfits.lt.le
  have hfull : 2 ^ 23 ≤ em.roundedMantissa ∨ t = -149 := hfits.full.imp_left hy.le_roundedMantissa
  obtain ⟨m', e', hcanonical, hvalue, hm', he'⟩ := carry hm₁ hfits.least_le hfull
  refine ⟨m', e', ?_, hcanonical, ?_⟩
  · rw [roundWithAccuracy, hshift]
    simp only [hm', he']
    rfl
  · rw [hvalue, hfits.value]
    have hunit : (0 : ℚ) < 2 ^ t := by positivity
    intro b hb
    rcases hb.units t with ⟨n, rfl⟩ | ⟨ht, hsmall⟩
    · -- in units of the last place `b` is a whole number, and rounding does not pass that
      refine ⟨fun h => ?_, fun h => ?_⟩
      · have hn := hy.roundedMantissa_le (le_of_mul_le_mul_right h hunit)
        exact mul_le_mul_of_nonneg_right (by exact_mod_cast hn) hunit.le
      · have hn := hy.le_roundedMantissa (le_of_mul_le_mul_right h hunit)
        exact mul_le_mul_of_nonneg_right (by exact_mod_cast hn) hunit.le
    · -- `b` is no more than the least number with all bits, which is passed by nothing here
      have hall := hfits.full.resolve_right ht.ne'
      have hbelow : b ≤ y * 2 ^ t :=
        hsmall.trans (mul_le_mul_of_nonneg_right hall hunit.le)
      refine ⟨fun h => ?_, fun _ => hsmall.trans ?_⟩
      · have hexact : y = (2 ^ 23 : ℕ) :=
          le_antisymm (le_of_mul_le_mul_right (h.trans hsmall) hunit) hall
        have hn := hy.roundedMantissa_le hexact.le
        refine (mul_le_mul_of_nonneg_right ?_ hunit.le).trans (hexact ▸ h)
        exact_mod_cast hn
      · refine mul_le_mul_of_nonneg_right ?_ hunit.le
        exact_mod_cast hy.le_roundedMantissa hall

/-! ## 3. Sums, products and quotients -/

theorem shiftLeft_value (m : ℕ) (e : ℤ) (k : ℕ) :
    ((m <<< k : ℕ) : ℚ) * 2 ^ (e - k) = m * 2 ^ e := by
  rw [Nat.shiftLeft_eq, zpow_sub₀ two_ne_zero, zpow_natCast, Nat.cast_mul, Nat.cast_pow,
    Nat.cast_ofNat]
  have hpow : (2 : ℚ) ^ k ≠ 0 := by positivity
  rw [mul_assoc, mul_div_assoc', mul_comm ((2 : ℚ) ^ k), mul_div_cancel_right₀ _ hpow]

/-- Rounding any mantissa and exponent gives the canonical parts of the nearest number. -/
theorem exists_round {m : ℕ} (hm : 0 < m) (e : ℤ) (s : Sign) :
    ∃ m' e', Float.Model.UnpackedFloat.round Format.binary32 s m e = ofParts s m' e' ∧
      Canonical m' e' ∧ RoundsTo (m * 2 ^ e) (m' * 2 ^ e') := by
  rw [Float.Model.UnpackedFloat.round, targetExponent_eq]
  generalize hk : (e - max ((m.log2 : ℤ) + 1 + e - 24) (-149)).toNat = k
  have hdecrease : decreaseExponent m e (max ((m.log2 : ℤ) + 1 + e - 24) (-149)) =
      (m <<< k, e - k) := by
    rw [decreaseExponent, hk]
  -- all bits of the format are filled, or the exponent is the least one
  have hfine : 2 ^ 23 ≤ m <<< k ∨ e - k ≤ -149 := by
    have hlog := Nat.log2_self_le hm.ne'
    by_cases hleast : e - k ≤ -149
    · exact .inr hleast
    · refine .inl ?_
      rw [Nat.shiftLeft_eq]
      calc 2 ^ 23 ≤ 2 ^ (m.log2 + k) := Nat.pow_le_pow_right two_pos (by omega)
        _ = 2 ^ m.log2 * 2 ^ k := pow_add ..
        _ ≤ m * 2 ^ k := Nat.mul_le_mul_right _ hlog
  rw [hdecrease]
  have hround := (prepared_exact hfine).exists_roundWithAccuracy s
  rwa [shiftLeft_value] at hround

/-- The product of two canonical numbers, rounded. -/
theorem exists_mul {m₁ m₂ : ℕ} {e₁ e₂ : ℤ} (h₁ : Canonical m₁ e₁) (h₂ : Canonical m₂ e₂)
    (hm₁ : 0 < m₁) (hm₂ : 0 < m₂) (s : Sign) :
    ∃ m e, roundWithAccuracy Format.binary32 s (m₁ * m₂) (e₁ + e₂) .exact = ofParts s m e ∧
      Canonical m e ∧ RoundsTo ((m₁ * 2 ^ e₁) * (m₂ * 2 ^ e₂)) (m * 2 ^ e) := by
  have hfine : 2 ^ 23 ≤ m₁ * m₂ ∨ e₁ + e₂ ≤ -149 := by
    rcases h₁.full with h | h
    · exact .inl (h.trans (Nat.le_mul_of_pos_right m₁ hm₂))
    rcases h₂.full with h' | h'
    · exact .inl (h'.trans (Nat.le_mul_of_pos_left m₂ hm₁))
    · exact .inr (by omega)
  have hvalue : ((m₁ * 2 ^ e₁) * (m₂ * 2 ^ e₂) : ℚ) = ((m₁ * m₂ : ℕ) : ℚ) * 2 ^ (e₁ + e₂) := by
    rw [zpow_add₀ two_ne_zero]
    push_cast
    ring
  rw [hvalue]
  exact (prepared_exact hfine).exists_roundWithAccuracy s

/-- The quotient is computed finely enough to be rounded. -/
theorem prepared_div {m₁ m₂ : ℕ} (e₁ e₂ : ℤ) (hm₁ : 0 < m₁) (hm₂ : 0 < m₂) :
    Prepared ((m₁ * 2 ^ e₁) / (m₂ * 2 ^ e₂)) (divCore Format.binary32 m₁ e₁ m₂ e₂).1
      (divCore Format.binary32 m₁ e₁ m₂ e₂).2.1 (divCore Format.binary32 m₁ e₁ m₂ e₂).2.2 := by
  generalize ht : min (e₁ - e₂) (max ((m₁.log2 + 1 + e₁) - (m₂.log2 + 1 + e₂) - 24) (-149)) = t
  obtain ⟨k, hk⟩ := Int.eq_ofNat_of_zero_le (sub_nonneg.mpr (ht ▸ min_le_left .. : t ≤ e₁ - e₂))
  have hcore : divCore Format.binary32 m₁ e₁ m₂ e₂ =
      (m₁ <<< k / m₂, t, accuracyOfFraction (m₁ <<< k % m₂) m₂) := by
    have htarget : Format.binary32.targetExponent (totalExponent m₁ e₁ - totalExponent m₂ e₂) =
        max ((m₁.log2 + 1 + e₁) - (m₂.log2 + 1 + e₂) - 24) (-149) := rfl
    rw [divCore, htarget, ht, hk, Int.toNat_natCast]
  -- the dividend is shifted so far that the quotient fills all bits of the format
  have hfine : 2 ^ 23 ≤ m₁ <<< k / m₂ ∨ t ≤ -149 := by
    by_cases hleast : t ≤ -149
    · exact .inr hleast
    · refine .inl ((Nat.le_div_iff_mul_le hm₂).mpr ?_)
      have hlog₁ := Nat.log2_self_le hm₁.ne'
      have hlog₂ := Nat.lt_log2_self (n := m₂)
      rw [Nat.shiftLeft_eq]
      calc 2 ^ 23 * m₂ ≤ 2 ^ 23 * 2 ^ (m₂.log2 + 1) := Nat.mul_le_mul_left _ hlog₂.le
        _ = 2 ^ (23 + (m₂.log2 + 1)) := (pow_add ..).symm
        _ ≤ 2 ^ (m₁.log2 + k) := Nat.pow_le_pow_right two_pos (by omega)
        _ = 2 ^ m₁.log2 * 2 ^ k := pow_add ..
        _ ≤ m₁ * 2 ^ k := Nat.mul_le_mul_right _ hlog₁
  have hvalue : ((m₁ * 2 ^ e₁) / (m₂ * 2 ^ e₂) : ℚ) = ((m₁ <<< k : ℕ) / m₂ : ℚ) * 2 ^ t := by
    have hshift := shiftLeft_value m₁ (e₁ - e₂) k
    rw [show e₁ - e₂ - k = t by omega, zpow_sub₀ two_ne_zero] at hshift
    rw [div_mul_eq_mul_div, hshift, mul_div_assoc', div_div, mul_comm (2 ^ e₂ : ℚ)]
  rw [hcore]
  exact ⟨⟨_, denotes_div _ _ hm₂, hvalue⟩, hfine⟩

/-! ## 4. Packing -/

theorem toNat_implicit (m : BitVec 23) : (1#1 ++ m).toNat = 2 ^ 23 + m.toNat := by
  rw [BitVec.toNat_append, ← Nat.shiftLeft_add_eq_or_of_lt m.isLt]
  rfl

/-- A number of the format that is not too large survives packing. -/
theorem unpack_pack {m : ℕ} {e : ℤ} (s : Sign) (h : Canonical m e) (he : e ≤ 104) :
    unpack Format.binary32 (pack Format.binary32 (ofParts s m e)) = ofParts s m e := by
  rw [ofParts]
  split
  · exact unpack_packedZero
  next hm =>
  have hbiased : (e + Format.binary32.exponentBias +
      Format.binary32.mantissaBitsWithoutImplicit).toNat = (e + 150).toNat :=
    congrArg Int.toNat (add_assoc e 127 23)
  generalize hb : (e + 150).toNat = b at hbiased
  have hleast := h.least_le
  have hfits : ¬2 ^ Format.binary32.exponentBits ≤ b + 1 := by
    show ¬256 ≤ b + 1
    omega
  rw [pack, hbiased, if_neg hfits]
  by_cases hfull : 2 ^ 23 ≤ m
  · have hlog : m.log2 + 1 = Format.binary32.mantissaBits := by
      have hlow := (Nat.le_log2 hm).mpr hfull
      have hhigh := (Nat.log2_lt hm).mpr h.lt
      show m.log2 + 1 = 24
      omega
    have hexponent : (BitVec.ofNat 8 b).toNat = b := by
      rw [BitVec.toNat_ofNat, Nat.mod_eq_of_lt (by omega)]
    have hinner : BitVec.ofNat 8 b ≠ -1#8 ∧ BitVec.ofNat 8 b ≠ 0#8 := by
      constructor <;> intro heq <;> have hnat := congrArg BitVec.toNat heq <;>
        rw [hexponent] at hnat <;> simp at hnat <;> omega
    have hsignificand : (1#1 ++ BitVec.ofNat 23 m).toNat = m := by
      have hlt := h.lt
      rw [toNat_implicit, BitVec.toNat_ofNat]
      omega
    rw [if_pos hlog, unpack]
    simp only [unpackMantissa_packComponents, unpackExponent_packComponents,
      unpackSign_packComponents, Sign.ofBitVec_toBitVec]
    rw [if_neg hinner.1, if_neg hinner.2]
    simp only [hsignificand, hexponent, finite.injEq, true_and]
    show (b : ℤ) - (127 + 23) = e
    omega
  · have hlog : ¬m.log2 + 1 = Format.binary32.mantissaBits := by
      have hhigh := (Nat.log2_lt hm).mpr (Nat.lt_of_not_le hfull)
      show ¬m.log2 + 1 = 24
      omega
    have hsignificand : (BitVec.ofNat 23 m).toNat = m := by
      rw [BitVec.toNat_ofNat, Nat.mod_eq_of_lt (by omega)]
    have hnonzero : BitVec.ofNat 23 m ≠ 0#23 := by
      intro heq
      have hnat := congrArg BitVec.toNat heq
      rw [hsignificand] at hnat
      exact hm hnat
    rw [if_neg hlog, unpack]
    simp only [unpackMantissa_packComponents, unpackExponent_packComponents,
      unpackSign_packComponents, Sign.ofBitVec_toBitVec]
    rw [if_neg (by decide), if_pos trivial, dif_neg hnonzero]
    simp only [hsignificand, finite.injEq, true_and]
    exact (h.full.resolve_left hfull).symm

theorem unpack_packedInfinity (s : Sign) :
    unpack Format.binary32 (packedInfinity Format.binary32 s) = .infinity s := by
  rw [packedInfinity, unpack]
  simp only [unpackMantissa_packComponents, unpackExponent_packComponents,
    unpackSign_packComponents, Sign.ofBitVec_toBitVec]
  rfl

/-- A number that is too large is packed as an infinity. -/
theorem unpack_pack_of_lt {m : ℕ} {e : ℤ} (s : Sign) (hm : m ≠ 0) (he : 104 < e) :
    unpack Format.binary32 (pack Format.binary32 (ofParts s m e)) = .infinity s := by
  have hbiased : (e + Format.binary32.exponentBias +
      Format.binary32.mantissaBitsWithoutImplicit).toNat = (e + 150).toNat :=
    congrArg Int.toNat (add_assoc e 127 23)
  have hover : 2 ^ Format.binary32.exponentBits ≤ (e + 150).toNat + 1 := by
    show 256 ≤ (e + 150).toNat + 1
    omega
  rw [ofParts, dif_neg hm, pack, hbiased, if_pos hover, unpack_packedInfinity]

/-- What a packed number holds is a number of the format. -/
theorem canonical_of_unpack {b : BitVec Format.binary32.numBits} {s : Sign} {m : ℕ} {e : ℤ}
    {hm : 0 < m} (h : unpack Format.binary32 b = .finite s m e hm) : Canonical m e ∧ e ≤ 104 := by
  have hlt : (unpackMantissa b).toNat < 2 ^ 23 := (unpackMantissa b).isLt
  have hexponent : (unpackExponent b).toNat < 2 ^ 8 := (unpackExponent b).isLt
  have hvalue : ((unpackExponent b).toNat : ℤ) - (Format.binary32.exponentBias +
      Format.binary32.mantissaBitsWithoutImplicit) = (unpackExponent b).toNat - 150 := rfl
  rw [unpack] at h
  simp only [hvalue] at h
  split at h
  · split at h <;> cases h
  next hmax =>
  have hmax' : (unpackExponent b).toNat ≠ 255 := fun heq => hmax (BitVec.eq_of_toNat_eq heq)
  split at h
  · next hzero =>
    split at h
    · cases h
    · simp only [finite.injEq] at h
      obtain ⟨-, rfl, rfl⟩ := h
      have hleast : ((unpackExponent b).toNat : ℤ) - 150 + 1 = -149 := by
        rw [hzero]
        rfl
      exact ⟨⟨by omega, hleast.ge, .inr hleast⟩, by omega⟩
  · next hzero =>
    have hzero' : (unpackExponent b).toNat ≠ 0 := fun heq => hzero (BitVec.eq_of_toNat_eq heq)
    simp only [finite.injEq] at h
    obtain ⟨-, rfl, rfl⟩ := h
    have himplicit := toNat_implicit (unpackMantissa b)
    exact ⟨⟨by omega, by omega, .inl (by omega)⟩, by omega⟩

/-- Canonical parts below the overflow are packed without loss. -/
theorem unpack_ofParts {m : ℕ} {e : ℤ} (s : Sign) (h : Canonical m e) (he : e ≤ 104) :
    (Float32.ofModel (.pack (ofParts s m e))).toModel.unpack = ofParts s m e :=
  unpack_pack s h he

theorem pack_unpack (x : Float32) : Float32.ofModel (.pack x.toModel.unpack) = x := by
  obtain ⟨⟨bits, hvalid⟩⟩ := x
  have hbits := pack_unpack_of_valid hvalid
  rw [Float32.Model.unpack, Float32.Model.pack]
  simp only [hbits]

end Tiling.Rounding
