import Tiling.Share
import Tiling.Proofs.Rounding

/-!
# The arithmetic of a sibling group

Sums, means and scaled shares are rounded at each step. While the shares of a group lie between the
powers `2 ^ (-60)` and `2 ^ 60` and are not too many, nothing overflows or underflows on the way, so
that every share of the normalized group can stand. In no group of that many shares does a share
become negative or stop being a number.
-/

namespace Tiling.Share

open Float.Model (Format UnpackedFloat)
open Float.Model.UnpackedFloat
open Rounding

/-! ## 1. Numbers above zero -/

def HasValue (x : Float32) (v : ℚ) : Prop :=
  ∃ m e h, x.toModel.unpack = .finite .positive m e h ∧ v = m * 2 ^ e

def Within (lo hi : ℚ) (x : Float32) : Prop :=
  ∃ v, HasValue x v ∧ lo ≤ v ∧ v ≤ hi

/-- Whether `x` is at least `lo` and above zero, possibly infinite. -/
def AtLeast (lo : ℚ) (x : Float32) : Prop :=
  x.toModel.unpack = .infinity .positive ∨ ∃ v, HasValue x v ∧ lo ≤ v

def IsRounded (x : Float32) (v : ℚ) : Prop :=
  ∃ m e, x = .ofModel (.pack (ofParts .positive m e)) ∧ Canonical m e ∧ RoundsTo v (m * 2 ^ e)

theorem lt_iff {x y : Float32} :
    x < y ↔ x.toModel.unpack.compare y.toModel.unpack = some .lt := by
  show decide (x.toModel < y.toModel) = true ↔ _
  rw [decide_eq_true_iff]
  show (_ == some Ordering.lt) = true ↔ _
  exact beq_iff_eq

theorem le_iff {x y : Float32} :
    x ≤ y ↔ (x.toModel.unpack.compare y.toModel.unpack).any (·.isLE) = true := by
  show decide (x.toModel ≤ y.toModel) = true ↔ _
  rw [decide_eq_true_iff]
  rfl

theorem unpack_zero : (0.0 : Float32).toModel.unpack = .zero .positive := by
  have hzero : (0.0 : Float32) = .ofModel (.pack (ofParts .positive 0 (-149))) := by decide +kernel
  rw [hzero, unpack_ofParts _ ⟨by norm_num, by norm_num, .inr rfl⟩ (by norm_num)]
  rfl

theorem unpack_negZero : (-0.0 : Float32).toModel.unpack = .zero .negative := by
  have hzero : (-0.0 : Float32) = .ofModel (.pack (ofParts .negative 0 (-149))) := by decide +kernel
  rw [hzero, unpack_ofParts _ ⟨by norm_num, by norm_num, .inr rfl⟩ (by norm_num)]
  rfl

/-- A share is usable exactly when it has a positive value. -/
theorem usable_iff {x : Float32} : usable x = true ↔ ∃ v, HasValue x v := by
  have hfinite : x.isFinite = x.toModel.unpack.isFinite := rfl
  rw [usable, Bool.and_eq_true, hfinite, decide_eq_true_iff, lt_iff, unpack_zero]
  constructor
  · rintro ⟨hfin, hlt⟩
    cases hx : x.toModel.unpack with
    | finite s m e hm =>
      cases s with
      | positive => exact ⟨_, m, e, hm, hx, rfl⟩
      | negative => rw [hx] at hlt; cases hlt
    | notANumber => rw [hx] at hfin; cases hfin
    | infinity s => rw [hx] at hfin; cases hfin
    | zero s => rw [hx] at hlt; cases hlt
  · rintro ⟨v, m, e, hm, hx, -⟩
    rw [hx]
    exact ⟨rfl, rfl⟩

theorem Within.usable {x : Float32} {lo hi : ℚ} (h : Within lo hi x) : usable x = true := by
  obtain ⟨v, hv, -⟩ := h
  exact usable_iff.mpr ⟨v, hv⟩

theorem HasValue.pos {x : Float32} {v : ℚ} (h : HasValue x v) : 0 < v := by
  obtain ⟨m, e, hm, -, rfl⟩ := h
  have hm' : (0 : ℚ) < m := by exact_mod_cast hm
  positivity

/-- Between representable bounds above zero and below the overflow the result is a number. -/
theorem IsRounded.within {x : Float32} {v lo hi : ℚ} (h : IsRounded x v) (hlo : Representable lo)
    (hhi : Representable hi) (hpos : 0 < lo) (hmax : hi < 2 ^ 128) (hlov : lo ≤ v)
    (hvhi : v ≤ hi) : Within lo hi x := by
  obtain ⟨m, e, rfl, hm, hround⟩ := h
  have hlow := (hround lo hlo).2 hlov
  have hhigh := (hround hi hhi).1 hvhi
  have hm0 : m ≠ 0 := by
    rintro rfl
    rw [Nat.cast_zero, zero_mul] at hlow
    exact absurd hpos (not_lt.mpr hlow)
  have he : e ≤ 104 := hm.lt_overflow_iff.mp (hhigh.trans_lt hmax)
  refine ⟨m * 2 ^ e, ⟨m, e, Nat.pos_of_ne_zero hm0, ?_, rfl⟩, hlow, hhigh⟩
  rw [unpack_ofParts _ hm he, ofParts, dif_neg hm0]

/-! ## 2. One operation -/

/-- A computed sum is the exact one, rounded. -/
theorem HasValue.add {x y : Float32} {v w : ℚ} (hx : HasValue x v) (hy : HasValue y w) :
    IsRounded (x + y) (v + w) := by
  obtain ⟨m₁, e₁, hm₁, hx, rfl⟩ := hx
  obtain ⟨m₂, e₂, hm₂, hy, rfl⟩ := hy
  generalize ht : min e₁ e₂ = t
  obtain ⟨k₁, hk₁⟩ := Int.eq_ofNat_of_zero_le (sub_nonneg.mpr (ht ▸ min_le_left .. : t ≤ e₁))
  obtain ⟨k₂, hk₂⟩ := Int.eq_ofNat_of_zero_le (sub_nonneg.mpr (ht ▸ min_le_right .. : t ≤ e₂))
  -- both significands are brought to the lower of the two exponents
  have hpos : 0 < m₁ <<< k₁ + m₂ <<< k₂ := by
    rw [Nat.shiftLeft_eq]
    positivity
  have hvalue : (m₁ * 2 ^ e₁ + m₂ * 2 ^ e₂ : ℚ) = ((m₁ <<< k₁ + m₂ <<< k₂ : ℕ) : ℚ) * 2 ^ t := by
    have h₁ := shiftLeft_value m₁ e₁ k₁
    have h₂ := shiftLeft_value m₂ e₂ k₂
    rw [show e₁ - k₁ = t by omega] at h₁
    rw [show e₂ - k₂ = t by omega] at h₂
    rw [Nat.cast_add, add_mul, h₁, h₂]
  obtain ⟨m, e, hround, hm, hv⟩ := exists_round hpos t .positive
  refine ⟨m, e, ?_, hm, hvalue ▸ hv⟩
  show Float32.ofModel (.pack (UnpackedFloat.add Format.binary32 x.toModel.unpack
    y.toModel.unpack)) = _
  rw [hx, hy, ← hround, UnpackedFloat.add, ht, decreaseExponent, hk₁, decreaseExponent, hk₂]
  have hcompare : compare ((m₁ <<< k₁ + m₂ <<< k₂ : ℕ) : ℤ) 0 = .gt :=
    compare_gt_iff_gt.mpr (by exact_mod_cast hpos)
  show Float32.ofModel (.pack (UnpackedFloat.normalize Format.binary32
    ((m₁ <<< k₁ + m₂ <<< k₂ : ℕ) : ℤ) t .positive)) = _
  rw [UnpackedFloat.normalize, hcompare]
  rfl

theorem HasValue.mul {x y : Float32} {v w : ℚ} (hx : HasValue x v) (hy : HasValue y w) :
    IsRounded (x * y) (v * w) := by
  obtain ⟨m₁, e₁, hm₁, hx, rfl⟩ := hx
  obtain ⟨m₂, e₂, hm₂, hy, rfl⟩ := hy
  obtain ⟨m, e, hround, hm, hv⟩ := exists_mul (canonical_of_unpack hx).1 (canonical_of_unpack hy).1
    hm₁ hm₂ .positive
  refine ⟨m, e, ?_, hm, hv⟩
  show Float32.ofModel (.pack (UnpackedFloat.mul Format.binary32 x.toModel.unpack
    y.toModel.unpack)) = _
  rw [hx, hy, ← hround]
  rfl

theorem HasValue.div {x y : Float32} {v w : ℚ} (hx : HasValue x v) (hy : HasValue y w) :
    IsRounded (x / y) (v / w) := by
  obtain ⟨m₁, e₁, hm₁, hx, rfl⟩ := hx
  obtain ⟨m₂, e₂, hm₂, hy, rfl⟩ := hy
  obtain ⟨m, e, hround, hm, hv⟩ := (prepared_div e₁ e₂ hm₁ hm₂).exists_roundWithAccuracy .positive
  refine ⟨m, e, ?_, hm, hv⟩
  show Float32.ofModel (.pack (UnpackedFloat.div Format.binary32 x.toModel.unpack
    y.toModel.unpack)) = _
  rw [hx, hy, ← hround]
  rfl

/-- A sum starts at the neutral element. -/
theorem negZero_add {x : Float32} {lo : ℚ} (hx : AtLeast lo x) : -0.0 + x = x := by
  have hsum : UnpackedFloat.add Format.binary32 (-0.0 : Float32).toModel.unpack x.toModel.unpack =
      x.toModel.unpack := by
    rw [unpack_negZero]
    rcases hx with hx | ⟨v, ⟨m, e, hm, hx, -⟩, -⟩ <;> rw [hx] <;> rfl
  show Float32.ofModel (.pack (UnpackedFloat.add Format.binary32 (-0.0 : Float32).toModel.unpack
    x.toModel.unpack)) = x
  rw [hsum, pack_unpack]

theorem hasValue_of_eq {x : Float32} {m : ℕ} {e : ℤ}
    (hx : x = .ofModel (.pack (ofParts .positive m e))) (hm : 0 < m) (h : Canonical m e)
    (he : e ≤ 104) : HasValue x (m * 2 ^ e) := by
  refine ⟨m, e, hm, ?_, rfl⟩
  rw [hx, unpack_ofParts _ h he, ofParts, dif_neg hm.ne']

theorem hasValue_whole : HasValue whole 100 := by
  have hwhole : whole = .ofModel (.pack (ofParts .positive 13107200 (-17))) := by decide +kernel
  have hvalue := hasValue_of_eq hwhole (by norm_num) ⟨by norm_num, by norm_num, .inl (by norm_num)⟩
    (by norm_num)
  rwa [show ((13107200 : ℕ) * 2 ^ (-17 : ℤ) : ℚ) = 100 by norm_num] at hvalue

theorem representable_two_pow {k : ℤ} (hk : -149 ≤ k) {n : ℕ} (hn : n ≤ 2 ^ 24) :
    Representable (n * 2 ^ k) :=
  ⟨n, k, hn, hk, rfl⟩

/-- The number of shares is exact as long as it has no more than 24 bits. -/
theorem within_count {shares : List Float32} (hpos : 0 < shares.length)
    (hlen : shares.length ≤ 2 ^ 24) :
    Within shares.length shares.length (count shares) := by
  have hn : shares.length.toUInt64.toNat = shares.length :=
    UInt64.toNat_ofNat_of_lt' (hlen.trans_lt (by norm_num))
  obtain ⟨m, e, hround, hm, hv⟩ := exists_round hpos 0 .positive
  have hrep : Representable (shares.length * 2 ^ (0 : ℤ)) :=
    representable_two_pow (by norm_num) hlen
  rw [zpow_zero, mul_one] at hrep hv
  refine IsRounded.within ⟨m, e, ?_, hm, hv⟩ hrep hrep (by exact_mod_cast hpos) ?_ le_rfl le_rfl
  · show Float32.ofModel (.pack (UnpackedFloat.ofNat Format.binary32
      shares.length.toUInt64.toNat)) = _
    have hcompare : compare (shares.length : ℤ) 0 = .gt :=
      compare_gt_iff_gt.mpr (by exact_mod_cast hpos)
    rw [hn, ← hround, UnpackedFloat.ofNat, UnpackedFloat.ofInt, UnpackedFloat.normalize, hcompare]
    rfl
  · have hlen' : (shares.length : ℚ) ≤ 2 ^ 24 := by exact_mod_cast hlen
    exact hlen'.trans_lt (by norm_num)

/-! ## 3. Groups -/

/-- A sum that has `k` summands already. -/
theorem within_foldl {a b : ℤ} (ha : -149 ≤ a) (hb : -149 ≤ b) (hb' : b ≤ 103)
    {shares : List Float32} (h : ∀ x ∈ shares, Within (2 ^ a) (2 ^ b) x) {k : ℕ} (hk : 0 < k)
    (hlen : k + shares.length ≤ 2 ^ 24) {sum : Float32}
    (hsum : Within (k * 2 ^ a) (k * 2 ^ b) sum) :
    Within ((k + shares.length : ℕ) * 2 ^ a) ((k + shares.length : ℕ) * 2 ^ b)
      (shares.foldl (· + ·) sum) := by
  induction shares generalizing k sum with
  | nil => exact hsum
  | cons x shares ih =>
    rw [List.length_cons] at hlen ⊢
    rw [List.forall_mem_cons] at h
    obtain ⟨v, hv, hlov, hvhi⟩ := hsum
    obtain ⟨⟨w, hw, hlow, hwhi⟩, hshares⟩ := h
    have hk' : k + 1 ≤ 2 ^ 24 := by omega
    have hover : ((k + 1 : ℕ) : ℚ) * 2 ^ b < 2 ^ 128 := by
      have hk'' : ((k + 1 : ℕ) : ℚ) ≤ 2 ^ 24 := by exact_mod_cast hk'
      calc ((k + 1 : ℕ) : ℚ) * 2 ^ b ≤ 2 ^ 24 * 2 ^ (103 : ℤ) :=
            mul_le_mul hk'' (zpow_le_zpow_right₀ one_le_two hb') (by positivity) (by positivity)
        _ < 2 ^ 128 := by norm_num
    have hnext : Within ((k + 1 : ℕ) * 2 ^ a) ((k + 1 : ℕ) * 2 ^ b) (sum + x) := by
      refine (hv.add hw).within (representable_two_pow ha hk') (representable_two_pow hb hk')
        (by positivity) hover ?_ ?_ <;>
        · push_cast
          linarith
    have hrest := ih hshares (Nat.succ_pos k) (by omega) hnext
    rwa [Nat.succ_add_eq_add_succ] at hrest

/-- A sum of shares lies between the multiples of their bounds. -/
theorem within_total {a b : ℤ} (ha : -149 ≤ a) (hb : -149 ≤ b) (hb' : b ≤ 103)
    {shares : List Float32} (hpos : shares ≠ []) (hlen : shares.length ≤ 2 ^ 24)
    (h : ∀ x ∈ shares, Within (2 ^ a) (2 ^ b) x) :
    Within (shares.length * 2 ^ a) (shares.length * 2 ^ b) (total shares) := by
  cases shares with
  | nil => exact absurd rfl hpos
  | cons x shares =>
    rw [List.forall_mem_cons] at h
    obtain ⟨v, hv, -⟩ := id h.1
    rw [List.length_cons] at hlen ⊢
    have hfirst : Within ((1 : ℕ) * 2 ^ a) ((1 : ℕ) * 2 ^ b) (-0.0 + x) := by
      rw [negZero_add (.inr ⟨v, hv, le_rfl⟩), Nat.cast_one, one_mul, one_mul]
      exact h.1
    have hsum := within_foldl ha hb hb' h.2 one_pos (by omega) hfirst
    rwa [Nat.add_comm 1] at hsum

/-- A mean of shares lies between their bounds. -/
theorem within_mean {a b : ℤ} (ha : -149 ≤ a) (hb : -149 ≤ b) (hb' : b ≤ 103)
    {shares : List Float32} (hpos : shares ≠ []) (hlen : shares.length ≤ 2 ^ 24)
    (h : ∀ x ∈ shares, Within (2 ^ a) (2 ^ b) x) : Within (2 ^ a) (2 ^ b) (mean shares) := by
  have hlength := List.length_pos_of_ne_nil hpos
  have hn : (0 : ℚ) < shares.length := by exact_mod_cast hlength
  obtain ⟨v, hv, hlov, hvhi⟩ := within_total ha hb hb' hpos hlen h
  obtain ⟨w, hw, hlow, hwhi⟩ := within_count hlength hlen
  obtain rfl : w = shares.length := le_antisymm hwhi hlow
  have hone : (1 : ℕ) ≤ 2 ^ 24 := by norm_num
  have hrepa := representable_two_pow ha hone
  have hrepb := representable_two_pow hb hone
  rw [Nat.cast_one, one_mul] at hrepa hrepb
  refine (hv.div hw).within hrepa hrepb (by positivity) ?_ ?_ ?_
  · exact (zpow_le_zpow_right₀ one_le_two hb').trans_lt (by norm_num)
  · rwa [le_div_iff₀ hn, mul_comm]
  · rwa [div_le_iff₀ hn, mul_comm]

/-- Whether a share lies between bounds that leave room for scaling, if it can stand at all. -/
def Scalable (x : Float32) : Prop :=
  usable x → Within (2 ^ (-60 : ℤ)) (2 ^ (60 : ℤ)) x

/-- After the repair all shares lie between the bounds that the sound ones lie between. -/
theorem within_repair {shares : List Float32} (hlen : shares.length ≤ 2 ^ 24)
    (h : ∀ x ∈ shares, Scalable x) :
    ∀ x ∈ repair shares, Within (2 ^ (-60 : ℤ)) (2 ^ (60 : ℤ)) x := by
  have hsound : ∀ x ∈ shares.filter usable, Within (2 ^ (-60 : ℤ)) (2 ^ (60 : ℤ)) x := by
    intro x hx
    rw [List.mem_filter] at hx
    exact h x hx.1 hx.2
  have hfallback : Within (2 ^ (-60 : ℤ)) (2 ^ (60 : ℤ))
      (if (shares.filter usable).isEmpty then whole else mean (shares.filter usable)) := by
    split
    · exact ⟨100, hasValue_whole, by norm_num, by norm_num⟩
    · next hne =>
      rw [List.isEmpty_iff] at hne
      exact within_mean (by norm_num) (by norm_num) (by norm_num) hne
        ((List.length_filter_le _ _).trans hlen) hsound
  intro x hx
  obtain ⟨y, hy, rfl⟩ := List.mem_map.mp hx
  split
  · next hu => exact h y hy hu
  · exact hfallback

/-- Scaled shares are far from the ends of the format. -/
theorem usable_rescale {shares : List Float32} (hpos : shares ≠ []) (hlen : shares.length ≤ 2 ^ 24)
    (h : ∀ x ∈ shares, Within (2 ^ (-60 : ℤ)) (2 ^ (60 : ℤ)) x) :
    ∀ x ∈ rescale shares, usable x := by
  rw [rescale]
  split
  · exact fun x hx => (h x hx).usable
  have hn : (1 : ℚ) ≤ shares.length := by
    exact_mod_cast Nat.one_le_iff_ne_zero.mpr (List.length_pos_of_ne_nil hpos).ne'
  have hn' : (shares.length : ℚ) ≤ 2 ^ 24 := by exact_mod_cast hlen
  have hrep : ∀ k : ℤ, -149 ≤ k → Representable (2 ^ k) := fun k hk => by
    simpa using representable_two_pow (n := 1) hk (by norm_num)
  obtain ⟨v, hv, hlov, hvhi⟩ := within_total (by norm_num) (by norm_num) (by norm_num) hpos hlen h
  have hlov' : (2 : ℚ) ^ (-60 : ℤ) ≤ v := (le_mul_of_one_le_left (by positivity) hn).trans hlov
  have hvhi' : v ≤ 2 ^ (84 : ℤ) := hvhi.trans
    ((mul_le_mul_of_nonneg_right hn' (by positivity)).trans (by norm_num))
  have hscale : Within (2 ^ (-78 : ℤ)) (2 ^ (67 : ℤ)) (whole / total shares) := by
    have hv0 := hv.pos
    refine (hasValue_whole.div hv).within (hrep _ (by norm_num)) (hrep _ (by norm_num))
      (by positivity) (by norm_num) ?_ ?_
    · rw [le_div_iff₀ hv0]
      exact (mul_le_mul_of_nonneg_left hvhi' (by positivity)).trans (by norm_num)
    · rw [div_le_iff₀ hv0]
      exact le_trans (by norm_num) (mul_le_mul_of_nonneg_left hlov' (by positivity))
  intro x hx
  obtain ⟨y, hy, rfl⟩ := List.mem_map.mp hx
  obtain ⟨a, ha, hloa, hahi⟩ := h y hy
  obtain ⟨b, hb, hlob, hbhi⟩ := hscale
  have hproduct : Within (2 ^ (-138 : ℤ)) (2 ^ (127 : ℤ)) (y * (whole / total shares)) := by
    have ha0 := ha.pos
    have hb0 := hb.pos
    refine (ha.mul hb).within (hrep _ (by norm_num)) (hrep _ (by norm_num)) (by positivity)
      (by norm_num) ?_ ?_
    · exact le_trans (by norm_num) (mul_le_mul hloa hlob (by positivity) ha0.le)
    · exact (mul_le_mul hahi hbhi hb0.le (by positivity)).trans (by norm_num)
  exact hproduct.usable

/-- A group of scalable shares has shares that can stand once it is normalized. -/
theorem usable_normalize {shares : List Float32} (hlen : shares.length ≤ 2 ^ 24)
    (h : ∀ x ∈ shares, Scalable x) : ∀ x ∈ normalize shares, usable x := by
  have hlength := length_repair shares
  have hrepair := within_repair hlen h
  intro x hx
  have hpos : repair shares ≠ [] := by
    intro hnil
    rw [normalize, hnil, List.eq_nil_of_length_eq_zero (length_rescale [])] at hx
    cases hx
  exact usable_rescale hpos (hlength.trans_le hlen) hrepair x hx

/-! ## 4. Groups without bounds -/

/-- Rounding does not fall below a representable number. -/
theorem IsRounded.atLeast {x : Float32} {v lo : ℚ} (h : IsRounded x v) (hlo : Representable lo)
    (hpos : 0 < lo) (hlov : lo ≤ v) : AtLeast lo x := by
  obtain ⟨m, e, rfl, hm, hround⟩ := h
  have hlow := (hround lo hlo).2 hlov
  have hm0 : m ≠ 0 := by
    rintro rfl
    rw [Nat.cast_zero, zero_mul] at hlow
    exact absurd hpos (not_lt.mpr hlow)
  by_cases he : e ≤ 104
  · refine .inr ⟨m * 2 ^ e, ⟨m, e, Nat.pos_of_ne_zero hm0, ?_, rfl⟩, hlow⟩
    rw [unpack_ofParts _ hm he, ofParts, dif_neg hm0]
  · exact .inl (unpack_pack_of_lt _ hm0 (not_le.mp he))

theorem IsRounded.nonneg {x : Float32} {v : ℚ} (h : IsRounded x v) : 0.0 ≤ x := by
  obtain ⟨m, e, rfl, hm, -⟩ := h
  rw [le_iff, unpack_zero]
  by_cases he : e ≤ 104
  · rw [unpack_ofParts _ hm he, ofParts]
    split <;> rfl
  · have hm0 : m ≠ 0 := by
      rintro rfl
      have hfull := hm.full
      omega
    have hover : (Float32.ofModel (.pack (ofParts .positive m e))).toModel.unpack =
        .infinity .positive := unpack_pack_of_lt _ hm0 (not_le.mp he)
    rw [hover]
    rfl

theorem AtLeast.add {x y : Float32} {a b : ℚ} (hx : AtLeast a x) (hy : AtLeast b y) (ha : 0 < a)
    (hb : 0 < b) (h : Representable (a + b)) : AtLeast (a + b) (x + y) := by
  have hinfinite : UnpackedFloat.add Format.binary32 x.toModel.unpack y.toModel.unpack =
      .infinity .positive → AtLeast (a + b) (x + y) := fun heq =>
    .inl ((congrArg (unpack Format.binary32 <| pack Format.binary32 ·) heq).trans
      (unpack_packedInfinity .positive))
  rcases hx with hx | ⟨v, hv, hav⟩
  · refine hinfinite ?_
    rcases hy with hy | ⟨w, ⟨m, e, hm, hy, -⟩, -⟩ <;> rw [hx, hy] <;> rfl
  · rcases hy with hy | ⟨w, hw, hbw⟩
    · obtain ⟨m, e, hm, hx, -⟩ := hv
      refine hinfinite ?_
      rw [hx, hy]
      rfl
    · exact (hv.add hw).atLeast h (add_pos ha hb) (add_le_add hav hbw)

theorem AtLeast.mul_nonneg {x y : Float32} {a b : ℚ} (hx : AtLeast a x) (hy : AtLeast b y) :
    0.0 ≤ x * y := by
  have hinfinite : UnpackedFloat.mul Format.binary32 x.toModel.unpack y.toModel.unpack =
      .infinity .positive → 0.0 ≤ x * y := fun heq => by
    have hunpack : (x * y).toModel.unpack = .infinity .positive :=
      (congrArg (unpack Format.binary32 <| pack Format.binary32 ·) heq).trans
        (unpack_packedInfinity .positive)
    rw [le_iff, unpack_zero, hunpack]
    rfl
  rcases hx with hx | ⟨v, hv, -⟩
  · refine hinfinite ?_
    rcases hy with hy | ⟨w, ⟨m, e, hm, hy, -⟩, -⟩ <;> rw [hx, hy] <;> rfl
  · rcases hy with hy | ⟨w, hw, -⟩
    · obtain ⟨m, e, hm, hx, -⟩ := hv
      refine hinfinite ?_
      rw [hx, hy]
      rfl
    · exact (hv.mul hw).nonneg

theorem AtLeast.div {x y : Float32} {a b v : ℚ} (hx : AtLeast a x) (hy : HasValue y v)
    (hb : Representable b) (hpos : 0 < b) (h : b * v ≤ a) : AtLeast b (x / y) := by
  have hv := hy.pos
  rcases hx with hx | ⟨w, hw, haw⟩
  · obtain ⟨m, e, hm, hy, -⟩ := hy
    have hinfinite : UnpackedFloat.div Format.binary32 x.toModel.unpack y.toModel.unpack =
        .infinity .positive := by
      rw [hx, hy]
      rfl
    exact .inl ((congrArg (unpack Format.binary32 <| pack Format.binary32 ·) hinfinite).trans
      (unpack_packedInfinity .positive))
  · refine (hw.div hy).atLeast hb hpos ?_
    rw [le_div_iff₀ hv]
    exact h.trans haw

theorem AtLeast.nonneg {x : Float32} {lo : ℚ} (h : AtLeast lo x) : 0.0 ≤ x := by
  rw [le_iff, unpack_zero]
  rcases h with h | ⟨v, ⟨m, e, hm, h, -⟩, -⟩ <;> rw [h] <;> rfl

/-- The least number of the format. -/
theorem atLeast_of_usable {x : Float32} (h : usable x) : AtLeast (2 ^ (-149 : ℤ)) x := by
  obtain ⟨v, m, e, hm, hx, rfl⟩ := usable_iff.mp h
  have hexponent := (canonical_of_unpack hx).1.least_le
  have hm' : (1 : ℚ) ≤ m := by exact_mod_cast hm
  refine .inr ⟨_, ⟨m, e, hm, hx, rfl⟩, ?_⟩
  calc (2 : ℚ) ^ (-149 : ℤ) ≤ 2 ^ e := zpow_le_zpow_right₀ one_le_two hexponent
    _ ≤ m * 2 ^ e := le_mul_of_one_le_left (by positivity) hm'

theorem atLeast_foldl {shares : List Float32} (h : ∀ x ∈ shares, AtLeast (2 ^ (-149 : ℤ)) x)
    {k : ℕ} (hk : 0 < k) (hlen : k + shares.length ≤ 2 ^ 24) {sum : Float32}
    (hsum : AtLeast (k * 2 ^ (-149 : ℤ)) sum) :
    AtLeast ((k + shares.length : ℕ) * 2 ^ (-149 : ℤ)) (shares.foldl (· + ·) sum) := by
  induction shares generalizing k sum with
  | nil => exact hsum
  | cons x shares ih =>
    rw [List.length_cons] at hlen ⊢
    rw [List.forall_mem_cons] at h
    have hnext : AtLeast ((k + 1 : ℕ) * 2 ^ (-149 : ℤ)) (sum + x) := by
      have hk' : (0 : ℚ) < k := by exact_mod_cast hk
      have hsplit : ((k + 1 : ℕ) * 2 ^ (-149 : ℤ) : ℚ) = k * 2 ^ (-149 : ℤ) + 2 ^ (-149 : ℤ) := by
        push_cast
        ring
      rw [hsplit]
      refine hsum.add h.1 (by positivity) (by positivity) ?_
      rw [← hsplit]
      exact representable_two_pow le_rfl (by omega)
    have hrest := ih h.2 (Nat.succ_pos k) (by omega) hnext
    rwa [Nat.succ_add_eq_add_succ] at hrest

/-- A total of positive shares is at least one least unit for each of them. -/
theorem atLeast_total {shares : List Float32} (hpos : shares ≠ []) (hlen : shares.length ≤ 2 ^ 24)
    (h : ∀ x ∈ shares, AtLeast (2 ^ (-149 : ℤ)) x) :
    AtLeast (shares.length * 2 ^ (-149 : ℤ)) (total shares) := by
  cases shares with
  | nil => exact absurd rfl hpos
  | cons x shares =>
    rw [List.forall_mem_cons] at h
    rw [List.length_cons] at hlen ⊢
    have hfirst : AtLeast ((1 : ℕ) * 2 ^ (-149 : ℤ)) (-0.0 + x) := by
      rw [negZero_add h.1, Nat.cast_one, one_mul]
      exact h.1
    have hsum := atLeast_foldl h.2 one_pos (by omega) hfirst
    rwa [Nat.add_comm 1] at hsum

/-- After the repair all shares are above zero, though the mean that they are repaired with may be
infinite. -/
theorem atLeast_repair {shares : List Float32} (hlen : shares.length ≤ 2 ^ 24) :
    ∀ x ∈ repair shares, AtLeast (2 ^ (-149 : ℤ)) x := by
  have hfallback : AtLeast (2 ^ (-149 : ℤ))
      (if (shares.filter usable).isEmpty then whole else mean (shares.filter usable)) := by
    split
    · exact .inr ⟨100, hasValue_whole, by norm_num⟩
    · next hne =>
      rw [List.isEmpty_iff] at hne
      have hlength := List.length_pos_of_ne_nil hne
      have hlen' := (List.length_filter_le usable shares).trans hlen
      obtain ⟨n, hn, hlow, hhigh⟩ := within_count hlength hlen'
      obtain rfl := le_antisymm hhigh hlow
      have hsum := atLeast_total hne hlen' fun x hx =>
        atLeast_of_usable (List.of_mem_filter hx)
      refine hsum.div hn ?_ (by positivity) (mul_comm _ _).le
      simpa using representable_two_pow (n := 1) (le_refl (-149)) (by norm_num)
  intro x hx
  obtain ⟨y, -, rfl⟩ := List.mem_map.mp hx
  split
  · next hu => exact atLeast_of_usable hu
  · exact hfallback

/-- Whatever the shares of a group, a normalized share is a number or infinite, and not negative. -/
theorem nonneg_normalize {shares : List Float32} (hlen : shares.length ≤ 2 ^ 24) :
    ∀ x ∈ normalize shares, 0.0 ≤ x := by
  have hrepair := atLeast_repair hlen
  rw [normalize, rescale]
  split
  · exact fun x hx => (hrepair x hx).nonneg
  next hscales =>
  intro x hx
  obtain ⟨y, hy, rfl⟩ := List.mem_map.mp hx
  have hne : repair shares ≠ [] := List.ne_nil_of_mem hy
  have hsum := atLeast_total hne ((length_repair shares).trans_le hlen) hrepair
  -- the sum is finite, or nothing would be scaled
  obtain ⟨v, hv⟩ : ∃ v, HasValue (total (repair shares)) v := by
    rcases hsum with hinfinite | ⟨v, hv, -⟩
    · have hfinite : (total (repair shares)).isFinite = false := by
        show (total (repair shares)).toModel.unpack.isFinite = false
        rw [hinfinite]
        rfl
      simp [hfinite] at hscales
    · exact ⟨v, hv⟩
  have hmax : v < 2 ^ 128 := by
    obtain ⟨m, e, hm, hx, rfl⟩ := hv
    obtain ⟨hcanonical, he⟩ := canonical_of_unpack hx
    exact hcanonical.lt_overflow_iff.mpr he
  have hscale : AtLeast (2 ^ (-122 : ℤ)) (whole / total (repair shares)) := by
    refine AtLeast.div (.inr ⟨100, hasValue_whole, le_rfl⟩) hv ?_ (by positivity) ?_
    · simpa using representable_two_pow (k := -122) (n := 1) (by norm_num) (by norm_num)
    · calc (2 : ℚ) ^ (-122 : ℤ) * v ≤ 2 ^ (-122 : ℤ) * 2 ^ 128 := by gcongr
        _ ≤ 100 := by norm_num
  exact (hrepair y hy).mul_nonneg hscale

/-! ## 5. Moderate shares -/

/-- Whether a share is far from both ends of the format. -/
def moderate (share : Float32) : Bool :=
  1e-18 ≤ share && share ≤ 1e18

theorem HasValue.le_of_le {x y : Float32} {v w : ℚ} (hx : HasValue x v) (hy : HasValue y w)
    (h : x ≤ y) : v ≤ w := by
  obtain ⟨m₁, e₁, hm₁, hx, rfl⟩ := hx
  obtain ⟨m₂, e₂, hm₂, hy, rfl⟩ := hy
  have hle : ((compare e₁ e₂).then (compare m₁ m₂)).isLE = true := by
    rw [le_iff, hx, hy] at h
    exact h
  rw [Ordering.isLE_then_iff_or, compare_lt_iff_lt, compare_eq_iff_eq, Nat.isLE_compare] at hle
  rcases hle with hlt | ⟨rfl, hle⟩
  · exact ((canonical_of_unpack hx).1.lt_of_lt (canonical_of_unpack hy).1 hlt).le
  · have hle' : (m₁ : ℚ) ≤ m₂ := by exact_mod_cast hle
    gcongr

/-- A moderate share lies between the powers of two that bound moderate numbers. -/
theorem within_of_moderate {x : Float32} (h : moderate x) :
    Within (2 ^ (-60 : ℤ)) (2 ^ (60 : ℤ)) x := by
  rw [moderate, Bool.and_eq_true, decide_eq_true_iff, decide_eq_true_iff] at h
  have hlow : HasValue 1e-18 (9671407 * 2 ^ (-83 : ℤ)) :=
    hasValue_of_eq (by decide +kernel) (by norm_num)
      ⟨by norm_num, by norm_num, .inl (by norm_num)⟩ (by norm_num)
  have hhigh : HasValue 1e18 (14551915 * 2 ^ (36 : ℤ)) :=
    hasValue_of_eq (by decide +kernel) (by norm_num)
      ⟨by norm_num, by norm_num, .inl (by norm_num)⟩ (by norm_num)
  have hpositive : ∃ v, HasValue x v := by
    rw [le_iff] at h
    obtain ⟨hlo, hhi⟩ := h
    obtain ⟨m₁, e₁, hm₁, hlo', -⟩ := id hlow
    obtain ⟨m₂, e₂, hm₂, hhi', -⟩ := id hhigh
    rw [le_iff, hhi'] at hhi
    rw [hlo'] at hlo
    cases hx : x.toModel.unpack with
    | finite s m e hm =>
      cases s with
      | positive => exact ⟨_, m, e, hm, hx, rfl⟩
      | negative => rw [hx] at hlo; cases hlo
    | notANumber => rw [hx] at hlo; cases hlo
    | infinity s =>
      cases s with
      | positive => rw [hx] at hhi; cases hhi
      | negative => rw [hx] at hlo; cases hlo
    | zero s => rw [hx] at hlo; cases hlo
  obtain ⟨v, hv⟩ := hpositive
  refine ⟨v, hv, le_trans (by norm_num) (hlow.le_of_le hv h.1), ?_⟩
  exact (hv.le_of_le hhigh h.2).trans (by norm_num)

end Tiling.Share
