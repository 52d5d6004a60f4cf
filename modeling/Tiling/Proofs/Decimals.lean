import Tiling.Json
import Tiling.Proofs.Rounding

/-!
# Numbers written in decimal

The shortest decimal of a finite number reads back as the number, and it is short enough for a
reader that keeps the first digits only. So a finite number survives being written to JSON and read
at once.
-/

namespace Tiling

open Float.Model (Format UnpackedFloat)
open Float.Model.UnpackedFloat
open Rounding

/-! ## 1. Reading a decimal -/

namespace Decimal

/-- Reading a decimal that is not far out of range rounds its value once. -/
theorem exists_prepared {n : ℕ} {e : ℤ} (hn : 0 < n) (hlow : -256 ≤ e) (hhigh : e ≤ 256) :
    ∃ m q a, UnpackedFloat.ofScientific Format.binary32 n e =
        roundWithAccuracy Format.binary32 .positive m q a ∧
      Prepared (n * 10 ^ e) m q a := by
  have hnear : ¬e > 2 ^ Format.binary32.exponentBits := not_lt.mpr hhigh
  have hnear' : ¬e < -(2 ^ Format.binary32.exponentBits + n.log2) := by
    show ¬e < -(256 + n.log2)
    omega
  rw [UnpackedFloat.ofScientific, dif_neg hn.ne', if_neg hnear, if_neg hnear']
  split
  · next he =>
    -- the digits are shifted by the bits of the format, so the product has as many bits at least
    obtain ⟨k, rfl⟩ := Int.eq_ofNat_of_zero_le he
    have hfine : 2 ^ 23 ≤ n <<< 24 * 10 ^ k ∨ (-24 + 0 : ℤ) ≤ -149 := by
      refine .inl (le_trans ?_ (Nat.le_mul_of_pos_right _ (by positivity)))
      rw [Nat.shiftLeft_eq]
      exact le_trans (by norm_num) (Nat.le_mul_of_pos_left _ hn)
    have hvalue : (n * 10 ^ (k : ℤ) : ℚ) = (n <<< 24 * 10 ^ k : ℕ) * 2 ^ (-24 + 0 : ℤ) := by
      have hshift := shiftLeft_value n 0 24
      rw [zpow_zero, mul_one] at hshift
      rw [Nat.cast_mul, mul_right_comm, Nat.cast_pow, Nat.cast_ofNat, zpow_natCast]
      exact congrArg (· * (10 : ℚ) ^ k) hshift.symm
    rw [hvalue]
    exact ⟨_, _, _, rfl, prepared_exact hfine⟩
  · next he =>
    have hten : 0 < 10 ^ (-e).toNat := by positivity
    have hvalue : (n * 10 ^ e : ℚ) =
        n * 2 ^ (0 : ℤ) / ((10 ^ (-e).toNat : ℕ) * 2 ^ (0 : ℤ)) := by
      have hpow : ((10 ^ (-e).toNat : ℕ) : ℚ) = 10 ^ (-e) := by
        rw [Nat.cast_pow, Nat.cast_ofNat, ← zpow_natCast, Int.toNat_of_nonneg (by omega)]
      rw [hpow, zpow_zero, mul_one, mul_one, zpow_neg, div_inv_eq_mul]
    rw [hvalue]
    exact ⟨_, _, _, rfl, prepared_div 0 0 hn hten⟩

/-- Reading a decimal rounds its value once, if its exponent is moderate. -/
theorem exists_ofScientific {n : ℕ} {e : ℤ} (hlow : -256 ≤ e) (hhigh : e ≤ 256) :
    ∃ m e', UnpackedFloat.ofScientific Format.binary32 n e = ofParts .positive m e' ∧
      Canonical m e' ∧ RoundsTo (n * 10 ^ e) (m * 2 ^ e') := by
  rcases Nat.eq_zero_or_pos n with rfl | hn
  · exact ⟨0, -149, rfl, ⟨by norm_num, le_rfl, .inr rfl⟩, by simp [RoundsTo]⟩
  · obtain ⟨m, q, a, hread, hprepared⟩ := exists_prepared hn hlow hhigh
    rw [hread]
    exact hprepared.exists_roundWithAccuracy .positive

/-- Decimals that stand for one number are read as one number. -/
theorem toSingle_congr {d d' : Decimal} (hsign : d.negative = d'.negative)
    (hlow : -256 ≤ d.exponent) (hhigh : d.exponent ≤ 256) (hlow' : -256 ≤ d'.exponent)
    (hhigh' : d'.exponent ≤ 256)
    (hvalue : (d.digits * 10 ^ d.exponent : ℚ) = d'.digits * 10 ^ d'.exponent) :
    d.toSingle = d'.toSingle := by
  have hsize : UnpackedFloat.ofScientific Format.binary32 d.digits d.exponent =
      .ofScientific Format.binary32 d'.digits d'.exponent := by
    have hten : ∀ e : ℤ, (10 : ℚ) ^ e ≠ 0 := fun e => by positivity
    rcases Nat.eq_zero_or_pos d.digits with hzero | hpos
    · have hzero' : d'.digits = 0 := by
        rw [hzero, Nat.cast_zero, zero_mul, eq_comm, mul_eq_zero] at hvalue
        exact_mod_cast hvalue.resolve_right (hten _)
      rw [hzero, hzero']
      rfl
    · have hpos' : 0 < d'.digits := by
        refine Nat.pos_of_ne_zero fun hzero' => ?_
        rw [hzero', Nat.cast_zero, zero_mul, mul_eq_zero] at hvalue
        exact hpos.ne' (by exact_mod_cast hvalue.resolve_right (hten _))
      obtain ⟨m, q, a, hread, hprepared⟩ := exists_prepared hpos hlow hhigh
      obtain ⟨m', q', a', hread', hprepared'⟩ := exists_prepared hpos' hlow' hhigh'
      rw [← hvalue] at hprepared'
      rw [hread, hread', hprepared.roundWithAccuracy_congr hprepared' .positive]
  have hmodel : Float32.ofModel (.ofScientific d.digits d.exponent) =
      .ofModel (.ofScientific d'.digits d'.exponent) := congrArg (Float32.ofModel <| .pack ·) hsize
  rw [toSingle, toSingle, hmodel, hsign]

/-- A decimal whose value is a number of the format is read as that number. -/
theorem toSingle_eq {d : Decimal} {s : Sign} {m : ℕ} {e : ℤ}
    (hs : d.negative ↔ s = .negative) (hlow : -256 ≤ d.exponent) (hhigh : d.exponent ≤ 256)
    (hvalue : (d.digits * 10 ^ d.exponent : ℚ) = m * 2 ^ e) (hm : Canonical m e) (he : e ≤ 104) :
    d.toSingle = .ofModel (.pack (ofParts s m e)) := by
  obtain ⟨m', e', hread, hm', hround⟩ := exists_ofScientific (n := d.digits) hlow hhigh
  -- the value is representable, so that rounding does not change it
  have hexact := hround.eq ⟨m, e, hm.lt.le, hm.least_le, hvalue⟩
  obtain ⟨rfl, rfl⟩ := hm'.unique hm (hexact.trans hvalue)
  have hsize : Float32.ofModel (.ofScientific d.digits d.exponent) =
      .ofModel (.pack (ofParts .positive m' e')) := congrArg (Float32.ofModel <| .pack ·) hread
  rw [toSingle, hsize]
  cases s with
  | positive => rw [if_neg (by simp [hs])]
  | negative =>
    rw [if_pos (hs.mpr rfl)]
    show Float32.ofModel (.pack (neg (Float32.ofModel (.pack
      (ofParts .positive m' e'))).toModel.unpack)) = _
    rw [unpack_ofParts _ hm he, ofParts, ofParts]
    split <;> rfl

/-! ## 2. The exact decimal of a number -/

/-- What the exact decimal of a number has to do with the number. -/
structure Exact (x : Float32) (d : Decimal) : Prop where
  toSingle_eq : d.toSingle = x
  digits_lt : d.digits < 10 ^ 112
  least_le : -149 ≤ d.exponent
  exponent_le : d.exponent ≤ 0
  zero : d.digits = 0 → d.exponent = 0

/-- A decimal is exact if it has the value of the significand and exponent. -/
theorem exact_of_parts {x : Float32} {d : Decimal} {s : Sign} {m : ℕ} {e : ℤ}
    (hx : x.toModel.unpack = ofParts s m e) (hs : d.negative ↔ s = .negative)
    (hlow : -149 ≤ d.exponent) (hhigh : d.exponent ≤ 0)
    (hvalue : (d.digits * 10 ^ d.exponent : ℚ) = m * 2 ^ e) (hm : Canonical m e) (he : e ≤ 104)
    (hdigits : d.digits < 10 ^ 112) (hzero : d.digits = 0 → d.exponent = 0) : Exact x d := by
  refine ⟨?_, hdigits, hlow, hhigh, hzero⟩
  rw [← pack_unpack x, hx]
  exact toSingle_eq hs (by omega) (by omega) hvalue hm he

/-- The decimal of a number is exact. -/
theorem exact_of_ofSingle? {x : Float32} {d : Decimal} (h : ofSingle? x = some d) : Exact x d := by
  rw [ofSingle?] at h
  cases hx : x.toModel.unpack with
  | notANumber => rw [hx] at h; cases h
  | infinity s => rw [hx] at h; cases h
  | zero s =>
    rw [hx] at h
    cases h
    exact exact_of_parts (m := 0) (e := -149) hx (by cases s <;> simp) (by norm_num) le_rfl
      (by simp) ⟨by norm_num, le_rfl, .inr rfl⟩ (by norm_num) (by positivity) fun _ => rfl
  | finite s m e hm =>
    obtain ⟨hcanonical, he⟩ := canonical_of_unpack hx
    have hleast := hcanonical.least_le
    have hparts : x.toModel.unpack = ofParts s m e := by rw [hx, ofParts, dif_neg hm.ne']
    rw [hx] at h
    simp only at h
    split at h
    · next hexp =>
      cases h
      obtain ⟨k, rfl⟩ := Int.eq_ofNat_of_zero_le hexp
      refine exact_of_parts hparts (by cases s <;> simp) (by norm_num) le_rfl (by simp)
        hcanonical he ?_ fun _ => rfl
      calc m * 2 ^ k ≤ 2 ^ 24 * 2 ^ 104 :=
            Nat.mul_le_mul hcanonical.lt.le (Nat.pow_le_pow_right two_pos (by omega))
        _ < 10 ^ 112 := by norm_num
    · next hexp =>
      cases h
      obtain ⟨k, hk⟩ := Int.eq_ofNat_of_zero_le (a := -e) (by omega)
      obtain rfl : e = -k := by omega
      have hvalue : ((m * 5 ^ k : ℕ) * 10 ^ (-k : ℤ) : ℚ) = m * 2 ^ (-k : ℤ) := by
        have hten : (10 : ℚ) ^ (-k : ℤ) = 5 ^ (-k : ℤ) * 2 ^ (-k : ℤ) := by
          rw [← mul_zpow]
          norm_num
        have hfive : ((m * 5 ^ k : ℕ) : ℚ) * 5 ^ (-k : ℤ) = m := by
          rw [Nat.cast_mul, Nat.cast_pow, Nat.cast_ofNat, zpow_neg, zpow_natCast, mul_assoc,
            mul_inv_cancel₀ (by positivity), mul_one]
        rw [hten, ← mul_assoc, hfive]
      rw [hk] at *
      refine exact_of_parts hparts (by cases s <;> simp) hleast (by simp) hvalue hcanonical he ?_
        fun hzero => absurd hzero (Nat.mul_pos hm (Nat.pow_pos (by norm_num))).ne'
      calc m * 5 ^ k ≤ 2 ^ 24 * 5 ^ 149 :=
            Nat.mul_le_mul hcanonical.lt.le (Nat.pow_le_pow_right (by norm_num) (by omega))
        _ < 10 ^ 112 := by norm_num

theorem ofSingle?_isSome {x : Float32} (h : x.isFinite) : (ofSingle? x).isSome := by
  have hfinite : x.toModel.unpack.isFinite = true := h
  rw [ofSingle?]
  cases hx : x.toModel.unpack with
  | notANumber | infinity s => rw [hx] at hfinite; cases hfinite
  | zero s => rfl
  | finite s m e hm =>
    simp only
    split <;> rfl

/-! ## 3. The shortest decimal -/

theorem lt_pow_length (n : ℕ) : n < 10 ^ (Nat.toDigits 10 n).length :=
  (Nat.length_toDigits_le_iff (by norm_num) Nat.length_toDigits_pos).mp le_rfl

/-- Dropping digits and rounding up gives one more at most. -/
theorem digits_of_dropDigits? {x : Float32} {d near : Decimal} {count : Nat}
    (h : dropDigits? x d count = some near) : near.negative = d.negative ∧
      near.exponent = d.exponent + count ∧ (near.digits = d.digits / 10 ^ count ∨
        near.digits = d.digits / 10 ^ count + 1) := by
  have hmem := List.mem_of_find?_eq_some h
  split at hmem <;> simp only [List.mem_cons, List.not_mem_nil, or_false] at hmem <;>
    rcases hmem with rfl | rfl <;> simp

/-- What reads back as the number is found, whether it is rounded down or up. -/
theorem dropDigits?_isSome {x : Float32} {d near : Decimal} {count : Nat}
    (hread : near.toSingle = x) (hsign : near.negative = d.negative)
    (hexponent : near.exponent = d.exponent + count)
    (hdigits : near.digits = d.digits / 10 ^ count ∨ near.digits = d.digits / 10 ^ count + 1) :
    (dropDigits? x d count).isSome := by
  obtain ⟨negative, digits, exponent⟩ := near
  simp only at hsign hexponent hdigits
  subst hsign hexponent
  rw [dropDigits?, List.find?_isSome]
  refine ⟨_, ?_, decide_eq_true hread⟩
  rcases hdigits with rfl | rfl <;> split <;> simp

/-- As many digits are dropped as possible, and no digit is if nothing else is. -/
theorem shorten_eq {x : Float32} {d : Decimal} (h : Exact x d) (hd : d.digits ≠ 0) :
    ∃ count ≤ (Nat.toDigits 10 d.digits).length, dropDigits? x d count = some (shorten x d) ∧
      (count < (Nat.toDigits 10 d.digits).length → dropDigits? x d (count + 1) = none) := by
  generalize hlen : (Nat.toDigits 10 d.digits).length = len
  have hnone : (dropDigits? x d 0).isSome :=
    dropDigits?_isSome h.toSingle_eq rfl (by simp) (.inl (by simp))
  have hsome : ((List.range (len + 1)).reverse.findSome? (dropDigits? x d)).isSome :=
    List.findSome?_isSome_iff.mpr ⟨0, by simp, hnone⟩
  obtain ⟨near, hnear⟩ := Option.isSome_iff_exists.mp hsome
  obtain ⟨before, count, after, hcounts, hdrop, hbefore⟩ := List.findSome?_eq_some_iff.mp hnear
  have hmem : ∀ c, c ∈ before ++ count :: after ↔ c ≤ len := fun c => by
    rw [← hcounts, List.mem_reverse, List.mem_range]
    omega
  have hshorten : shorten x d = near := by
    rw [shorten, if_neg hd, hlen]
    simp only [hnear, Option.getD_some]
  refine ⟨count, (hmem count).mp (by simp), hshorten ▸ hdrop, fun hlt => hbefore _ ?_⟩
  -- the counts go down, so the next larger one was tried before
  have hsorted : (before ++ count :: after).Pairwise (· > ·) := by
    rw [← hcounts, List.pairwise_reverse]
    exact List.pairwise_lt_range
  have hlater := (List.pairwise_cons.mp (List.pairwise_append.mp hsorted).2.1).1
  rcases List.mem_append.mp ((hmem (count + 1)).mpr hlt) with hin | hin
  · exact hin
  · rcases List.mem_cons.mp hin with heq | hin
    · omega
    · exact absurd (hlater _ hin) (by omega)

/-- Without digits a decimal is read as zero, and that is the decimal of zero. -/
theorem digits_of_toSingle_eq_zero {x : Float32} {d near : Decimal} (h : ofSingle? x = some d)
    (hread : near.toSingle = x) (hlow : -256 ≤ near.exponent) (hhigh : near.exponent ≤ 256)
    (hdigits : near.digits = 0) : d.digits = 0 := by
  have hzero : near.toSingle = toSingle ⟨near.negative, 0, 0⟩ :=
    toSingle_congr rfl hlow hhigh (by norm_num) (by norm_num) (by simp [hdigits])
  rw [← hread, hzero] at h
  cases hsign : near.negative <;> rw [hsign] at h <;> cases h <;> rfl

/-- What the shortest decimal of a number has to do with the number. Its last digit is not zero, as
that digit would have been dropped too. -/
structure Shortest (x : Float32) (d : Decimal) : Prop where
  toSingle_eq : d.toSingle = x
  digits_lt : d.digits < 10 ^ 113
  least_le : -149 ≤ d.exponent
  exponent_le : d.exponent ≤ 112
  last_digit : d.digits = 0 ∧ d.exponent = 0 ∨ ¬10 ∣ d.digits

/-- Shortening the exact decimal gives a shortest one. -/
theorem shortest_shorten {x : Float32} {d : Decimal} (h : ofSingle? x = some d) :
    Shortest x (shorten x d) := by
  have hexact := exact_of_ofSingle? h
  have hlt := hexact.digits_lt
  have hleast := hexact.least_le
  have hgreatest := hexact.exponent_le
  by_cases hd : d.digits = 0
  · rw [shorten, if_pos hd]
    exact ⟨hexact.toSingle_eq, by omega, hleast, by omega, .inl ⟨hd, hexact.zero hd⟩⟩
  obtain ⟨count, hcount, hdrop, hmore⟩ := shorten_eq hexact hd
  have hlen : (Nat.toDigits 10 d.digits).length ≤ 112 :=
    Nat.toDigits_length 10 _ 112 (by norm_num) hlt
  obtain ⟨hsign, hexponent, hdigits⟩ := digits_of_dropDigits? hdrop
  have hread := toSingle_of_dropDigits? hdrop
  generalize shorten x d = near at *
  have hdown : d.digits / 10 ^ count ≤ d.digits := Nat.div_le_self _ _
  refine ⟨hread, by omega, by omega, by omega, .inr fun hdvd => ?_⟩
  have hpos : near.digits ≠ 0 := fun hzero =>
    hd (digits_of_toSingle_eq_zero h hread (by omega) (by omega) hzero)
  obtain ⟨k, hk⟩ := hdvd
  -- `k` with one more place dropped is the same number
  have hlast : count < (Nat.toDigits 10 d.digits).length := by
    refine lt_of_le_of_ne hcount fun heq => ?_
    have hzero : d.digits / 10 ^ count = 0 := Nat.div_eq_of_lt (heq ▸ lt_pow_length d.digits)
    omega
  have hfewer : (dropDigits? x d (count + 1)).isSome := by
    have hsame : Decimal.toSingle ⟨d.negative, k, d.exponent + (count + 1 : ℕ)⟩ = x := by
      rw [← hread]
      refine toSingle_congr hsign.symm (by simp only; omega) (by simp only; omega) (by omega)
        (by omega) ?_
      have hten : (10 : ℚ) ≠ 0 := by norm_num
      rw [hk, hexponent, Nat.cast_succ, ← add_assoc, zpow_add_one₀ hten]
      push_cast
      ring
    have hk' : k = d.digits / 10 ^ (count + 1) ∨ k = d.digits / 10 ^ (count + 1) + 1 := by
      rw [pow_succ, ← Nat.div_div_eq_div_mul]
      omega
    exact dropDigits?_isSome hsame rfl rfl hk'
  rw [hmore hlast] at hfewer
  cases hfewer

/-- Every finite number has a shortest decimal. -/
theorem exists_shortest? {x : Float32} (h : x.isFinite) :
    ∃ d, shortest? x = some d ∧ Shortest x d := by
  obtain ⟨d, hd⟩ := Option.isSome_iff_exists.mp (ofSingle?_isSome h)
  exact ⟨shorten x d, by rw [shortest?, hd]; rfl, shortest_shorten hd⟩

/-! ## 4. The literal of a number -/

/-- The literal of the shortest decimal is read as the number, and no digit of it is cut off. -/
theorem Shortest.read_literal {x : Float32} {d : Decimal} (h : Shortest x d) :
    (Numeral.ofDecimal d).decimal.toSingle = x ∧
      (Numeral.ofDecimal d).decimal.curtail Numeral.digitsOfSingle =
        (Numeral.ofDecimal d).decimal := by
  rw [Numeral.ofDecimal]
  split
  · next hspread =>
    rw [Bool.and_eq_true, Numeral.isPositional, Bool.and_eq_true] at hspread
    simp only [decide_eq_true_iff] at hspread
    obtain ⟨⟨-, hmagnitude⟩, hexponent⟩ := hspread
    have hleast := h.least_le
    have hgreatest := h.exponent_le
    obtain ⟨k, hk⟩ := Int.eq_ofNat_of_zero_le hexponent
    rw [magnitude, hk] at hmagnitude
    refine ⟨?_, curtail_of_length_le (Nat.toDigits_length 10 _ 113 (by norm_num) ?_)⟩
    · rw [← h.toSingle_eq]
      refine toSingle_congr rfl (by norm_num) (by norm_num) (by omega) (by omega) ?_
      simp [hk]
    · rw [hk, Int.toNat_natCast]
      calc d.digits * 10 ^ k < 10 ^ (Nat.toDigits 10 d.digits).length * 10 ^ k :=
            Nat.mul_lt_mul_of_pos_right (lt_pow_length _) (by positivity)
        _ = 10 ^ ((Nat.toDigits 10 d.digits).length + k) := (pow_add ..).symm
        _ ≤ 10 ^ 113 := Nat.pow_le_pow_right (by norm_num) (by omega)
  · exact ⟨h.toSingle_eq,
      curtail_of_length_le (Nat.toDigits_length 10 _ 113 (by norm_num) h.digits_lt)⟩

end Decimal

/-- A finite number survives being written and read at once. -/
theorem Json.single?_ofSingle {x : Float32} (h : x.isFinite) :
    (Json.ofSingle x).single? false = some x := by
  obtain ⟨d, hd, hshortest⟩ := Decimal.exists_shortest? h
  obtain ⟨hread, hcurtail⟩ := hshortest.read_literal
  have hbounded : x.isInf = false := by
    have hfinite : x.toModel.unpack.isFinite = true := h
    show x.toModel.unpack.isInf = false
    cases hx : x.toModel.unpack with
    | infinity s => rw [hx] at hfinite; cases hfinite
    | _ => rfl
  have hintegral : (Numeral.ofDecimal d).integral = false := by
    rw [Numeral.ofDecimal]
    split <;> rfl
  rw [ofSingle, hd]
  show Numeral.single? false (.ofDecimal d) = some x
  rw [Numeral.single?]
  simp [hintegral, hcurtail, hread, hbounded]

end Tiling
