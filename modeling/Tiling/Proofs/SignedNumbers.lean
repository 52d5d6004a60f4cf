import Tiling.Proofs.RoundingError

/-!
# Numbers on both sides of zero

A coordinate may lie on either side of zero, and an edge may lie beyond the largest number of the
format. Sums, differences, products and quotients are the exact ones, rounded, or an infinity on the
same side of zero where that is too large; and numbers compare as what they stand for.
-/

namespace Tiling.Rounding

open Float.Model (Format UnpackedFloat)
open Float.Model.UnpackedFloat

/-! ## 1. What a number stands for -/

def signum : Sign → ℚ
  | .positive => 1
  | .negative => -1

def Reads (u : UnpackedFloat) (v : ℚ) : Prop :=
  -- Both zeros are the number zero.
  ∃ s m e, u = ofParts s m e ∧ Canonical m e ∧ e ≤ 104 ∧ v = signum s * (m * 2 ^ e)

def IsNumber (x : Float32) (v : ℚ) : Prop :=
  Reads x.toModel.unpack v

/-- Whether `x` is the number `v`, or the infinity on the side of zero where `v` is too large. -/
def StandsFor (x : Float32) (v : ℚ) : Prop :=
  IsNumber x v ∨ ∃ s, x.toModel.unpack = .infinity s ∧ 2 ^ 128 ≤ signum s * v

theorem signum_mul_self (s : Sign) : signum s * signum s = 1 := by
  cases s <;> norm_num [signum]

theorem abs_signum (s : Sign) : |signum s| = 1 := by
  cases s <;> norm_num [signum]

theorem signum_mul (s t : Sign) : signum (s * t) = signum s * signum t := by
  cases s <;> cases t <;> norm_num [signum, show Sign.positive * .positive = .positive from rfl,
    show Sign.positive * .negative = .negative from rfl,
    show Sign.negative * .positive = .negative from rfl,
    show Sign.negative * .negative = .positive from rfl]

theorem signum_div (s t : Sign) : signum (s / t) = signum s / signum t := by
  cases s <;> cases t <;> norm_num [signum, show Sign.positive / .positive = .positive from rfl,
    show Sign.positive / .negative = .negative from rfl,
    show Sign.negative / .positive = .negative from rfl,
    show Sign.negative / .negative = .positive from rfl]

theorem apply_eq (s : Sign) (n : ℕ) : ((s.apply n : ℤ) : ℚ) = signum s * n := by
  cases s <;> simp [signum, Sign.apply]

theorem canonical_zero : Canonical 0 (-149) :=
  ⟨by norm_num, le_rfl, .inr rfl⟩

theorem reads_zero (s : Sign) : Reads (.zero s) 0 :=
  ⟨s, 0, -149, rfl, canonical_zero, by norm_num, by simp⟩

theorem isNumber_zero : IsNumber 0.0 0 := by
  rw [IsNumber, Share.unpack_zero]
  exact reads_zero .positive

/-- The finite floats are those that are numbers. -/
theorem isFinite_iff {x : Float32} : x.isFinite = true ↔ ∃ v, IsNumber x v := by
  have hfinite : x.isFinite = x.toModel.unpack.isFinite := rfl
  rw [hfinite]
  constructor
  · intro h
    cases hx : x.toModel.unpack with
    | finite s m e hm =>
      obtain ⟨hc, he⟩ := canonical_of_unpack hx
      exact ⟨_, s, m, e, by rw [hx, ofParts, dif_neg hm.ne'], hc, he, rfl⟩
    | zero s =>
      refine ⟨0, ?_⟩
      rw [IsNumber, hx]
      exact reads_zero s
    | notANumber => rw [hx] at h; cases h
    | infinity s => rw [hx] at h; cases h
  · rintro ⟨v, s, m, e, hx, -⟩
    rw [hx, ofParts]
    split <;> rfl

/-- Turning the sign negates the number read. -/
theorem Reads.neg {u : UnpackedFloat} {v : ℚ} (h : Reads u v) : Reads u.neg (-v) := by
  obtain ⟨s, m, e, rfl, hc, he, rfl⟩ := h
  refine ⟨-s, m, e, ?_, hc, he, ?_⟩
  · rw [ofParts, ofParts]
    split <;> rfl
  · have hsign : signum (-s) = -signum s := by
      cases s
      · exact (neg_neg 1).symm
      · rfl
    rw [hsign, neg_mul]

/-- The number that is packed from these parts. -/
theorem isNumber_of_eq {x : Float32} {s : Sign} {m : ℕ} {e : ℤ}
    (hx : x = .ofModel (.pack (ofParts s m e))) (hc : Canonical m e) (he : e ≤ 104) :
    IsNumber x (signum s * (m * 2 ^ e)) := by
  subst hx
  exact ⟨s, m, e, unpack_ofParts s hc he, hc, he, rfl⟩

theorem standsFor_ofParts {x : Float32} {s : Sign} {m : ℕ} {e : ℤ}
    (hx : x = .ofModel (.pack (ofParts s m e))) (hc : Canonical m e) :
    StandsFor x (signum s * (m * 2 ^ e)) := by
  by_cases he : e ≤ 104
  · exact .inl (isNumber_of_eq hx hc he)
  · have hfull : 2 ^ 23 ≤ m := hc.full.resolve_right (by omega)
    subst hx
    refine .inr ⟨s, unpack_pack_of_lt s (by omega) (not_le.mp he), ?_⟩
    rw [← mul_assoc, signum_mul_self, one_mul]
    exact not_lt.mp (mt hc.lt_overflow_iff.mp he)

namespace IsNumber

variable {x y : Float32} {v w : ℚ}

theorem representable (h : IsNumber x v) : Representable |v| := by
  obtain ⟨s, m, e, -, hc, -, rfl⟩ := h
  refine ⟨m, e, hc.lt.le, hc.least_le, ?_⟩
  rw [abs_mul, abs_signum, one_mul, abs_of_nonneg (by positivity)]

/-- A number is below the overflow. -/
theorem below_overflow (h : IsNumber x v) : |v| < 2 ^ 128 := by
  obtain ⟨s, m, e, -, hc, he, rfl⟩ := h
  rw [abs_mul, abs_signum, one_mul, abs_of_nonneg (by positivity)]
  exact hc.lt_overflow_iff.mpr he

/-- A number is a whole number of the least unit. -/
theorem exists_units (h : IsNumber x v) : ∃ n : ℤ, v = n * 2 ^ (-149 : ℤ) := by
  obtain ⟨s, m, e, -, hc, -, rfl⟩ := h
  obtain ⟨k, hk⟩ := Int.eq_ofNat_of_zero_le (sub_nonneg.mpr hc.least_le)
  refine ⟨s.apply (m * 2 ^ k : ℕ), ?_⟩
  rw [apply_eq, show e = k + (-149 : ℤ) by omega, zpow_add₀ two_ne_zero, zpow_natCast]
  push_cast
  ring

end IsNumber

/-! ## 2. Rounding -/

/-- Whether `w` passes no representable number on the way from `v`, on either side of zero. -/
def SignedRoundsTo (v w : ℚ) : Prop :=
  ∀ b, Representable |b| → (v ≤ b → w ≤ b) ∧ (b ≤ v → b ≤ w)

def IsResult (x : Float32) (v : ℚ) : Prop :=
  ∃ w, StandsFor x w ∧ SignedRoundsTo v w

theorem SignedRoundsTo.neg {v w : ℚ} (h : SignedRoundsTo v w) : SignedRoundsTo (-v) (-w) := by
  intro b hb
  obtain ⟨hup, hdown⟩ := h (-b) (by rwa [abs_neg])
  exact ⟨fun hle => neg_le.mpr (hdown (neg_le.mp hle)),
    fun hle => le_neg.mpr (hup (le_neg.mp hle))⟩

theorem SignedRoundsTo.refl (v : ℚ) : SignedRoundsTo v v :=
  fun _ _ => ⟨id, id⟩

theorem RoundsTo.signed {v w : ℚ} (h : RoundsTo v w) (hv : 0 ≤ v) (hw : 0 ≤ w) (s : Sign) :
    SignedRoundsTo (signum s * v) (signum s * w) := by
  have hpos : SignedRoundsTo v w := by
    intro b hb
    rcases le_or_gt 0 b with hb0 | hb0
    · exact h b (by rwa [abs_of_nonneg hb0] at hb)
    · exact ⟨fun hle => absurd (hv.trans hle) (not_le.mpr hb0), fun _ => hb0.le.trans hw⟩
  cases s with
  | positive => simpa [signum] using hpos
  | negative => simpa [signum] using hpos.neg

/-- Packing what reads as a number gives its rounding. -/
theorem Reads.isResult {u : UnpackedFloat} {v : ℚ} (h : Reads u v) :
    IsResult (.ofModel (.pack u)) v := by
  obtain ⟨s, m, e, rfl, hc, he, rfl⟩ := h
  exact ⟨_, standsFor_ofParts rfl hc, .refl _⟩

theorem isResult_of_parts {x : Float32} {s : Sign} {m : ℕ} {e : ℤ} {v : ℚ}
    (hx : x = .ofModel (.pack (ofParts s m e))) (hc : Canonical m e) (hv : 0 ≤ v)
    (h : RoundsTo v (m * 2 ^ e)) : IsResult x (signum s * v) :=
  ⟨_, standsFor_ofParts hx hc, h.signed hv (by positivity) s⟩

theorem isResult_normalize (n : ℤ) (t : ℤ) :
    IsResult (.ofModel (.pack (UnpackedFloat.normalize Format.binary32 n t .positive)))
      (n * 2 ^ t) := by
  rw [UnpackedFloat.normalize]
  rcases lt_trichotomy n 0 with hlt | rfl | hgt
  · obtain ⟨k, hk⟩ := Int.eq_ofNat_of_zero_le (neg_nonneg.mpr hlt.le)
    obtain ⟨m, e, hround, hm, hv⟩ := exists_round (show 0 < k by omega) t .negative
    have hresult := isResult_of_parts rfl hm (by positivity) hv (s := .negative)
    have hn : (n : ℚ) = -k := by
      rw [← neg_neg n, hk, Int.cast_neg, Int.cast_natCast]
    rw [compare_lt_iff_lt.mpr hlt, hk, Int.toNat_natCast, hn]
    simpa [signum, hround] using hresult
  · rw [compare_eq_iff_eq.mpr rfl, Int.cast_zero, zero_mul]
    exact (reads_zero .positive).isResult
  · obtain ⟨k, hk⟩ := Int.eq_ofNat_of_zero_le hgt.le
    obtain ⟨m, e, hround, hm, hv⟩ := exists_round (show 0 < k by omega) t .positive
    have hresult := isResult_of_parts rfl hm (by positivity) hv (s := .positive)
    rw [compare_gt_iff_gt.mpr hgt, hk, Int.toNat_natCast, Int.cast_natCast]
    simpa [signum, hround] using hresult

/-! ## 3. One operation -/

/-- A difference is the sum with the second number on the other side of zero. -/
theorem unpacked_sub_eq_add_neg (a b : UnpackedFloat) :
    UnpackedFloat.sub Format.binary32 a b = UnpackedFloat.add Format.binary32 a b.neg := by
  have happly : ∀ (s t : Sign) (m n : ℤ), s.apply m - t.apply n = s.apply m + (-t).apply n := by
    intro s t m n
    cases t
    · exact sub_neg_eq_add _ _
    · exact Int.sub_eq_add_neg
  cases a <;> cases b <;> try rfl
  · simp only [UnpackedFloat.sub, UnpackedFloat.add, UnpackedFloat.neg, happly]

/-- The number whose significand is not zero. -/
theorem Reads.cases {u : UnpackedFloat} {v : ℚ} (h : Reads u v) :
    (∃ s, u = .zero s ∧ v = 0) ∨
      ∃ s m e, ∃ hm : 0 < m, u = .finite s m e hm ∧ Canonical m e ∧ v = signum s * (m * 2 ^ e) := by
  obtain ⟨s, m, e, rfl, hc, he, rfl⟩ := h
  rw [ofParts]
  split
  · next hm => exact .inl ⟨s, rfl, by simp [hm]⟩
  · next hm => exact .inr ⟨s, m, e, Nat.pos_of_ne_zero hm, rfl, hc, rfl⟩

/-- The sum of two numbers, rounded. -/
theorem isResult_add {a b : UnpackedFloat} {v w : ℚ} (ha : Reads a v) (hb : Reads b w) :
    IsResult (.ofModel (.pack (UnpackedFloat.add Format.binary32 a b))) (v + w) := by
  rcases ha.cases with ⟨s₁, rfl, rfl⟩ | ⟨s₁, m₁, e₁, hm₁, rfl, h₁, rfl⟩
  · have hsum : UnpackedFloat.add Format.binary32 (.zero s₁) b = b ∨
        w = 0 ∧ ∃ s, UnpackedFloat.add Format.binary32 (.zero s₁) b = .zero s := by
      rcases hb.cases with ⟨s₂, rfl, rfl⟩ | ⟨s₂, m₂, e₂, hm₂, rfl, h₂, rfl⟩
      · exact .inr ⟨rfl, by cases s₁ <;> cases s₂ <;> exact ⟨_, rfl⟩⟩
      · exact .inl rfl
    rw [zero_add]
    rcases hsum with hsum | ⟨rfl, s, hsum⟩ <;> rw [hsum]
    · exact hb.isResult
    · exact (reads_zero s).isResult
  · rcases hb.cases with ⟨s₂, rfl, rfl⟩ | ⟨s₂, m₂, e₂, hm₂, rfl, h₂, rfl⟩
    · rw [add_zero]
      exact ha.isResult
    generalize ht : min e₁ e₂ = t
    obtain ⟨k₁, hk₁⟩ := Int.eq_ofNat_of_zero_le (sub_nonneg.mpr (ht ▸ min_le_left .. : t ≤ e₁))
    obtain ⟨k₂, hk₂⟩ := Int.eq_ofNat_of_zero_le (sub_nonneg.mpr (ht ▸ min_le_right .. : t ≤ e₂))
    -- both significands are brought to the lower of the two exponents
    have hvalue : ∀ (s : Sign) (m k : ℕ) (e : ℤ), e - t = k →
        signum s * (m * 2 ^ e) = ((s.apply (m <<< k : ℕ) : ℤ) : ℚ) * 2 ^ t := by
      intro s m k e hk
      rw [apply_eq, mul_assoc, ← shiftLeft_value m e k, show e - k = t by omega]
    have hsum := isResult_normalize (s₁.apply (m₁ <<< k₁ : ℕ) + s₂.apply (m₂ <<< k₂ : ℕ)) t
    rw [Int.cast_add, add_mul, ← hvalue s₁ m₁ k₁ e₁ hk₁, ← hvalue s₂ m₂ k₂ e₂ hk₂] at hsum
    rw [UnpackedFloat.add, ht, decreaseExponent, hk₁, decreaseExponent, hk₂]
    exact hsum

theorem isResult_mul {a b : UnpackedFloat} {v w : ℚ} (ha : Reads a v) (hb : Reads b w) :
    IsResult (.ofModel (.pack (UnpackedFloat.mul Format.binary32 a b))) (v * w) := by
  rcases ha.cases with ⟨s₁, rfl, rfl⟩ | ⟨s₁, m₁, e₁, hm₁, rfl, h₁, rfl⟩
  · rw [zero_mul]
    rcases hb.cases with ⟨s₂, rfl, -⟩ | ⟨s₂, m₂, e₂, hm₂, rfl, -⟩ <;>
      exact (reads_zero (s₁ * s₂)).isResult
  · rcases hb.cases with ⟨s₂, rfl, rfl⟩ | ⟨s₂, m₂, e₂, hm₂, rfl, h₂, rfl⟩
    · rw [mul_zero]
      exact (reads_zero (s₁ * s₂)).isResult
    obtain ⟨m, e, hround, hm, hv⟩ := exists_mul h₁ h₂ hm₁ hm₂ (s₁ * s₂)
    rw [mul_mul_mul_comm, ← signum_mul]
    exact isResult_of_parts (congrArg (Float32.ofModel <| .pack ·) hround) hm (by positivity) hv

theorem isResult_div {a b : UnpackedFloat} {v w : ℚ} (ha : Reads a v) (hb : Reads b w)
    (hw : w ≠ 0) : IsResult (.ofModel (.pack (UnpackedFloat.div Format.binary32 a b))) (v / w) := by
  rcases hb.cases with ⟨s₂, rfl, rfl⟩ | ⟨s₂, m₂, e₂, hm₂, rfl, h₂, rfl⟩
  · exact absurd rfl hw
  rcases ha.cases with ⟨s₁, rfl, rfl⟩ | ⟨s₁, m₁, e₁, hm₁, rfl, h₁, rfl⟩
  · rw [zero_div]
    exact (reads_zero (s₁ / s₂)).isResult
  · obtain ⟨m, e, hround, hm, hv⟩ := (prepared_div e₁ e₂ hm₁ hm₂).exists_roundWithAccuracy (s₁ / s₂)
    rw [mul_div_mul_comm, ← signum_div]
    exact isResult_of_parts (congrArg (Float32.ofModel <| .pack ·) hround) hm (by positivity) hv

namespace IsNumber

variable {x y : Float32} {v w : ℚ}

theorem add (hx : IsNumber x v) (hy : IsNumber y w) : IsResult (x + y) (v + w) :=
  isResult_add hx hy

/-- A computed difference is the exact one, rounded. -/
theorem sub (hx : IsNumber x v) (hy : IsNumber y w) : IsResult (x - y) (v - w) := by
  have hsum := isResult_add hx (Reads.neg hy)
  rw [← sub_eq_add_neg v w, ← unpacked_sub_eq_add_neg] at hsum
  exact hsum

theorem mul (hx : IsNumber x v) (hy : IsNumber y w) : IsResult (x * y) (v * w) :=
  isResult_mul hx hy

theorem div (hx : IsNumber x v) (hy : IsNumber y w) (hw : w ≠ 0) : IsResult (x / y) (v / w) :=
  isResult_div hx hy hw

end IsNumber

/-! ## 4. Comparisons -/

/-- Numbers above zero compare by their exponents first. -/
theorem Canonical.compare_eq {m n : ℕ} {e f : ℤ} (hm : Canonical m e) (hn : Canonical n f) :
    (compare e f).then (compare m n) = compare (m * 2 ^ e : ℚ) (n * 2 ^ f) := by
  rcases lt_trichotomy e f with hlt | rfl | hgt
  · rw [compare_lt_iff_lt.mpr hlt, compare_lt_iff_lt.mpr (hm.lt_of_lt hn hlt)]
    rfl
  · have hpow : (0 : ℚ) < 2 ^ e := by positivity
    rw [compare_eq_iff_eq.mpr rfl]
    show compare m n = _
    rcases lt_trichotomy m n with hlt | rfl | hgt
    · have hlt' : (m : ℚ) < n := by exact_mod_cast hlt
      rw [compare_lt_iff_lt.mpr hlt, compare_lt_iff_lt.mpr (by gcongr)]
    · rw [compare_eq_iff_eq.mpr rfl, compare_eq_iff_eq.mpr rfl]
    · have hgt' : (n : ℚ) < m := by exact_mod_cast hgt
      rw [compare_gt_iff_gt.mpr hgt, compare_gt_iff_gt.mpr (by gcongr)]
  · rw [compare_gt_iff_gt.mpr hgt, compare_gt_iff_gt.mpr (hn.lt_of_lt hm hgt)]
    rfl

theorem compare_neg_neg (v w : ℚ) : compare (-v) (-w) = (compare v w).swap := by
  rcases lt_trichotomy v w with hlt | rfl | hgt
  · rw [compare_lt_iff_lt.mpr hlt, compare_gt_iff_gt.mpr (neg_lt_neg hlt)]
    rfl
  · rw [compare_eq_iff_eq.mpr rfl, compare_eq_iff_eq.mpr rfl]
    rfl
  · rw [compare_gt_iff_gt.mpr hgt, compare_lt_iff_lt.mpr (neg_lt_neg hgt)]
    rfl

/-- Floats that are numbers compare as the numbers do. -/
theorem Reads.compare_eq {a b : UnpackedFloat} {v w : ℚ} (ha : Reads a v) (hb : Reads b w) :
    a.compare b = some (compare v w) := by
  rcases ha.cases with ⟨s₁, rfl, rfl⟩ | ⟨s₁, m₁, e₁, hm₁, rfl, h₁, rfl⟩ <;>
    rcases hb.cases with ⟨s₂, rfl, rfl⟩ | ⟨s₂, m₂, e₂, hm₂, rfl, h₂, rfl⟩
  · rw [compare_eq_iff_eq.mpr rfl]
    rfl
  · have hpos : (0 : ℚ) < m₂ * 2 ^ e₂ := by positivity
    cases s₂ with
    | positive =>
      rw [compare_lt_iff_lt.mpr (by rwa [signum, one_mul])]
      rfl
    | negative =>
      rw [compare_gt_iff_gt.mpr (by rwa [signum, neg_one_mul, neg_lt_zero])]
      rfl
  · have hpos : (0 : ℚ) < m₁ * 2 ^ e₁ := by positivity
    cases s₁ with
    | positive =>
      rw [compare_gt_iff_gt.mpr (by rwa [signum, one_mul])]
      rfl
    | negative =>
      rw [compare_lt_iff_lt.mpr (by rwa [signum, neg_one_mul, neg_lt_zero])]
      rfl
  · have hpos₁ : (0 : ℚ) < m₁ * 2 ^ e₁ := by positivity
    have hpos₂ : (0 : ℚ) < m₂ * 2 ^ e₂ := by positivity
    cases s₁ <;> cases s₂ <;> simp only [signum, one_mul, neg_one_mul]
    case positive.positive =>
      rw [← h₁.compare_eq h₂]
      rfl
    case negative.negative =>
      rw [compare_neg_neg, ← h₁.compare_eq h₂]
      rfl
    case positive.negative =>
      rw [compare_gt_iff_gt.mpr (by linarith)]
      rfl
    case negative.positive =>
      rw [compare_lt_iff_lt.mpr (by linarith)]
      rfl

/-- A number compares as what the other one stands for, even if that is beyond the format. -/
theorem IsNumber.compare_eq {x y : Float32} {v w : ℚ} (hx : IsNumber x v) (hy : StandsFor y w) :
    x.toModel.unpack.compare y.toModel.unpack = some (compare v w) := by
  rcases hy with hy | ⟨s, hy, hw⟩
  · exact Reads.compare_eq hx hy
  obtain ⟨hlow, hhigh⟩ := abs_lt.mp hx.below_overflow
  have hside : x.toModel.unpack.compare (.infinity s) =
      some (match s with | .positive => .lt | .negative => .gt) := by
    rcases hx.cases with ⟨s₁, hu, -⟩ | ⟨s₁, m₁, e₁, hm₁, hu, -⟩ <;> rw [hu] <;>
      cases s₁ <;> cases s <;> rfl
  rw [hy, hside]
  cases s with
  | positive =>
    rw [signum, one_mul] at hw
    rw [compare_lt_iff_lt.mpr (hhigh.trans_le hw)]
  | negative =>
    rw [signum, neg_one_mul, le_neg] at hw
    rw [compare_gt_iff_gt.mpr (hw.trans_lt hlow)]

namespace IsNumber

variable {x y : Float32} {v w : ℚ}

theorem lt_iff (hx : IsNumber x v) (hy : StandsFor y w) : x < y ↔ v < w := by
  rw [Share.lt_iff, hx.compare_eq hy, Option.some.injEq, compare_lt_iff_lt]

theorem le_iff (hx : IsNumber x v) (hy : StandsFor y w) : x ≤ y ↔ v ≤ w := by
  rw [Share.le_iff, hx.compare_eq hy, Option.any_some, Ordering.isLE_iff_ne_gt,
    ← compare_le_iff_le]

/-- A float is at most one number. -/
theorem unique (h : IsNumber x v) (h' : IsNumber x w) : v = w :=
  le_antisymm ((h.le_iff (.inl h')).mp ((h.le_iff (.inl h)).mpr le_rfl))
    ((h'.le_iff (.inl h)).mp ((h'.le_iff (.inl h')).mpr le_rfl))

/-- Only the two zeros are the same number. -/
theorem eq_or_eq_zero (hx : IsNumber x v) (hy : IsNumber y v) : x = y ∨ v = 0 := by
  rcases hx.cases with ⟨s₁, -, hv⟩ | ⟨s₁, m₁, e₁, hm₁, hu₁, h₁, hv₁⟩
  · exact .inr hv
  rcases hy.cases with ⟨s₂, -, hv⟩ | ⟨s₂, m₂, e₂, hm₂, hu₂, h₂, hv₂⟩
  · exact .inr hv
  have hpos₁ : (0 : ℚ) < m₁ * 2 ^ e₁ := by positivity
  have hpos₂ : (0 : ℚ) < m₂ * 2 ^ e₂ := by positivity
  have hsign : s₁ = s₂ := by
    cases s₁ <;> cases s₂ <;> first | rfl | (simp only [signum] at hv₁ hv₂; linarith)
  subst hsign
  have hvalue : (m₁ * 2 ^ e₁ : ℚ) = m₂ * 2 ^ e₂ := by
    have hsquare := congrArg (signum s₁ * ·) (hv₁.symm.trans hv₂)
    simpa only [← mul_assoc, signum_mul_self, one_mul] using hsquare
  obtain ⟨rfl, rfl⟩ := h₁.unique h₂ hvalue
  exact .inl (by rw [← pack_unpack x, hu₁, ← hu₂, pack_unpack])

theorem beq_iff (hx : IsNumber x v) (hy : StandsFor y w) : (x == y) = true ↔ v = w := by
  have hbeq : (x == y) = (x.toModel.unpack.compare y.toModel.unpack == some .eq) := rfl
  rw [hbeq, hx.compare_eq hy, beq_iff_eq, Option.some.injEq, compare_eq_iff_eq]

end IsNumber

/-! ## 5. Bounds of results -/

theorem StandsFor.isNumber {x : Float32} {v : ℚ} (h : StandsFor x v) (hv : |v| < 2 ^ 128) :
    IsNumber x v := by
  refine h.resolve_right ?_
  rintro ⟨s, -, hle⟩
  have habs : signum s * v ≤ |v| := by
    rw [← one_mul |v|, ← abs_signum s, ← abs_mul]
    exact le_abs_self _
  exact absurd hv (not_lt.mpr (hle.trans habs))

/-- Between representable bounds of the format the result is a number. -/
theorem IsResult.within {x : Float32} {v lo hi : ℚ} (h : IsResult x v) (hlo : Representable |lo|)
    (hhi : Representable |hi|) (hlow : -2 ^ 128 < lo) (hhigh : hi < 2 ^ 128) (hlov : lo ≤ v)
    (hvhi : v ≤ hi) : ∃ w, IsNumber x w ∧ SignedRoundsTo v w ∧ lo ≤ w ∧ w ≤ hi := by
  obtain ⟨w, hx, hround⟩ := h
  have hlow' := (hround lo hlo).2 hlov
  have hhigh' := (hround hi hhi).1 hvhi
  exact ⟨w, hx.isNumber (abs_lt.mpr ⟨hlow.trans_le hlow', hhigh'.trans_lt hhigh⟩), hround,
    hlow', hhigh'⟩

theorem SignedRoundsTo.eq {v w : ℚ} (h : SignedRoundsTo v w) (hv : Representable |v|) : w = v :=
  le_antisymm ((h v hv).1 le_rfl) ((h v hv).2 le_rfl)

theorem representable_zero : Representable |(0 : ℚ)| :=
  ⟨0, 0, by norm_num, by norm_num, by simp⟩

/-- A result that is zero or away from the ends of the format is near the exact one. -/
theorem IsResult.near {x : Float32} {v : ℚ} (h : IsResult x v) (hlo : v = 0 ∨ 2 ^ (-126 : ℤ) ≤ v)
    (hhi : v ≤ 2 ^ (126 : ℤ)) :
    ∃ w, IsNumber x w ∧ SignedRoundsTo v w ∧ v * (1 - unit) ≤ w ∧ w ≤ v * (1 + unit) := by
  rcases hlo with rfl | hlo
  · obtain ⟨w, hx, hround, hlow, hhigh⟩ := h.within representable_zero representable_zero
      (by norm_num) (by norm_num) le_rfl le_rfl
    exact ⟨w, hx, hround, by rwa [zero_mul], by rwa [zero_mul]⟩
  · obtain ⟨a, b, ha, hb, hva, hav, hvb, hbv⟩ := exists_representable_near hlo
    have hpos : 0 < v := lt_of_lt_of_le (by positivity) hlo
    have ha0 : 0 ≤ a := (mul_nonneg hpos.le (by linarith [unit_lt_one])).trans hva
    obtain ⟨w, hx, hround, hlow, hhigh⟩ := h.within (by rwa [abs_of_nonneg ha0])
      (by rwa [abs_of_nonneg (hpos.le.trans hvb)]) (lt_of_lt_of_le (by norm_num) ha0)
      (hbv.trans_lt (growth_lt_overflow hhi)) hav hvb
    exact ⟨w, hx, hround, hva.trans hlow, hhigh.trans hbv⟩

theorem representable_units {n : ℕ} (hn : n ≤ 2 ^ 24) :
    Representable |(n : ℚ) * 2 ^ (-149 : ℤ)| := by
  rw [abs_of_nonneg (by positivity)]
  exact ⟨n, -149, hn, le_rfl, rfl⟩

/-- Near the lower end of the format the next representable number is no more than a least unit
away. -/
theorem exists_units_above {v : ℚ} (hv : 0 ≤ v) (hsmall : v ≤ 2 ^ (-126 : ℤ)) :
    ∃ n : ℕ, n ≤ 2 ^ 24 ∧ v ≤ n * 2 ^ (-149 : ℤ) ∧ n * 2 ^ (-149 : ℤ) ≤ v + 2 ^ (-149 : ℤ) := by
  have hstep : (0 : ℚ) < 2 ^ (-149 : ℤ) := by positivity
  have hscale : v / 2 ^ (-149 : ℤ) * 2 ^ (-149 : ℤ) = v := div_mul_cancel₀ v hstep.ne'
  refine ⟨⌈v / 2 ^ (-149 : ℤ)⌉₊, Nat.ceil_le.mpr ?_, ?_, ?_⟩
  · rw [div_le_iff₀ hstep]
    exact hsmall.trans (by norm_num)
  · rw [← div_le_iff₀ hstep]
    exact Nat.le_ceil _
  · have hceil := (Nat.ceil_lt_add_one (div_nonneg hv hstep.le)).le
    have hscaled := mul_le_mul_of_nonneg_right hceil hstep.le
    rwa [add_mul, hscale, one_mul] at hscaled

/-- Anywhere a result has one error, and near the lower end of the format one of the least unit. -/
theorem IsResult.exists_le {x : Float32} {v : ℚ} (h : IsResult x v) (hv : 0 ≤ v)
    (hmax : v ≤ 2 ^ (126 : ℤ)) :
    ∃ w, IsNumber x w ∧ SignedRoundsTo v w ∧ w ≤ v * (1 + unit) + 2 ^ (-149 : ℤ) := by
  rcases le_or_gt (2 ^ (-126 : ℤ)) v with hlarge | hsmall
  · obtain ⟨w, hw, hround, -, hhigh⟩ := h.near (.inr hlarge) hmax
    exact ⟨w, hw, hround, hhigh.trans (le_add_of_nonneg_right (by positivity))⟩
  · obtain ⟨n, hn, hup, hnear⟩ := exists_units_above hv hsmall.le
    have htop : (n : ℚ) * 2 ^ (-149 : ℤ) < 2 ^ 128 := by
      refine (hnear.trans (add_le_add_left hsmall.le _)).trans_lt ?_
      norm_num
    obtain ⟨w, hw, hround, -, hhigh⟩ := h.within representable_zero (representable_units hn)
      (by norm_num) htop hv hup
    refine ⟨w, hw, hround, hhigh.trans (hnear.trans ?_)⟩
    linarith [mul_nonneg hv unit_pos.le]

/-- A small enough sum needs no rounding. -/
theorem IsNumber.representable_add {x y : Float32} {v w : ℚ} (hx : IsNumber x v) (hy : IsNumber y w)
    (hsum : 0 ≤ v + w) (hsmall : v + w ≤ 2 ^ (-126 : ℤ)) : Representable |v + w| := by
  obtain ⟨m, hm⟩ := hx.exists_units
  obtain ⟨n, hn⟩ := hy.exists_units
  have hmn : v + w = (m + n : ℤ) * 2 ^ (-149 : ℤ) := by rw [hm, hn, ← add_mul, Int.cast_add]
  have hstep : (0 : ℚ) < 2 ^ (-149 : ℤ) := by positivity
  rw [hmn] at hsum hsmall ⊢
  have hnonneg : 0 ≤ m + n := by exact_mod_cast nonneg_of_mul_nonneg_left hsum hstep
  have hfew : ((m + n : ℤ) : ℚ) ≤ 2 ^ 24 :=
    le_of_mul_le_mul_right (hsmall.trans (by norm_num)) hstep
  obtain ⟨k, hk⟩ := Int.eq_ofNat_of_zero_le hnonneg
  rw [hk, Int.cast_natCast] at hfew ⊢
  exact representable_units (by exact_mod_cast hfew)

/-- A sum of two numbers that are not negative has one error. Near the lower end of the format it is
exact. -/
theorem IsNumber.exists_sum {x y : Float32} {v w : ℚ} (hx : IsNumber x v) (hy : IsNumber y w)
    (hv : 0 ≤ v) (hw : 0 ≤ w) (hmax : v + w ≤ 2 ^ (126 : ℤ)) :
    ∃ z, IsNumber (x + y) z ∧ 0 ≤ z ∧ z ≤ (v + w) * (1 + unit) := by
  have hsum : 0 ≤ v + w := add_nonneg hv hw
  rcases le_or_gt (2 ^ (-126 : ℤ)) (v + w) with hlarge | hsmall
  · obtain ⟨z, hz, -, hlow, hhigh⟩ := (hx.add hy).near (.inr hlarge) hmax
    exact ⟨z, hz, (mul_nonneg hsum (by linarith [unit_lt_one])).trans hlow, hhigh⟩
  · have hrep := hx.representable_add hy hsum hsmall.le
    obtain ⟨z, hz, -, hlow, hhigh⟩ := (hx.add hy).within hrep hrep
      (lt_of_lt_of_le (by norm_num) hsum) (hsmall.trans (by norm_num)) le_rfl le_rfl
    exact ⟨z, hz, hsum.trans hlow,
      hhigh.trans (le_mul_of_one_le_right hsum (by linarith [unit_pos]))⟩

/-! ## 6. What is not a number -/

section Kinds

variable {x y : Float32} {v : ℚ}

theorem notANumber_iff : x.isNaN = true ↔ x.toModel.unpack = .notANumber :=
  UnpackedFloat.isNaN_iff

/-- A float is no number, infinite or a number. -/
theorem kinds (x : Float32) :
    x.isNaN ∨ (∃ s, x.toModel.unpack = .infinity s) ∨ ∃ v, IsNumber x v := by
  by_cases hx : x.isFinite
  · exact .inr (.inr (isFinite_iff.mp hx))
  · have hfinite : x.isFinite = x.toModel.unpack.isFinite := rfl
    rw [hfinite] at hx
    rw [notANumber_iff]
    cases hu : x.toModel.unpack with
    | notANumber => exact .inl rfl
    | infinity s => exact .inr (.inl ⟨s, rfl⟩)
    | zero s => exact absurd rfl (hu ▸ hx)
    | finite s m e hm => exact absurd rfl (hu ▸ hx)

theorem StandsFor.not_isNaN (h : StandsFor x v) : ¬x.isNaN := by
  rw [notANumber_iff]
  rcases h with hx | ⟨s, hx, -⟩
  · rcases hx.cases with ⟨s, hu, -⟩ | ⟨s, m, e, hm, hu, -⟩ <;> rw [hu] <;> nofun
  · rw [hx]
    nofun

theorem not_lt_of_isNaN (h : y.isNaN) : ¬x < y := by
  rw [Share.lt_iff, notANumber_iff.mp h]
  cases x.toModel.unpack <;> nofun

theorem not_le_of_isNaN (h : x.isNaN ∨ y.isNaN) : ¬x ≤ y := by
  rw [Share.le_iff]
  rcases h with h | h <;> rw [notANumber_iff.mp h]
  · nofun
  · cases x.toModel.unpack <;> nofun

/-- What lies between two numbers is a number. -/
theorem exists_number_between {lo hi : Float32} {a b : ℚ} (hlo : IsNumber lo a)
    (hhi : IsNumber hi b) (hlox : lo ≤ x) (hxhi : x ≤ hi) : ∃ v, IsNumber x v ∧ a ≤ v ∧ v ≤ b := by
  rcases kinds x with hx | ⟨s, hx⟩ | ⟨v, hv⟩
  · exact absurd hxhi (not_le_of_isNaN (.inl hx))
  · rw [Share.le_iff, hx] at hlox hxhi
    cases s with
    | positive =>
      rcases hhi.cases with ⟨t, hu, -⟩ | ⟨t, m, e, hm, hu, -⟩ <;> rw [hu] at hxhi <;> cases t <;>
        cases hxhi
    | negative =>
      rcases hlo.cases with ⟨t, hu, -⟩ | ⟨t, m, e, hm, hu, -⟩ <;> rw [hu] at hlox <;> cases t <;>
        cases hlox
  · exact ⟨v, hv, (hlo.le_iff (.inl hv)).mp hlox, (hv.le_iff (.inl hhi)).mp hxhi⟩

end Kinds

end Tiling.Rounding
