import Tiling.Proofs.Shares

/-!
# What rounding adds up to

Away from the ends of the format a rounded result is off by less than one part in `2 ^ 23`. In a
group of forty shares these errors add up to less than the tolerance. So the shares of a scaled
group have a total that is left alone, and to scale the group once more changes nothing.
-/

namespace Tiling

namespace Rounding

/-- What a rounded result is off by, at most, as a part of it. -/
def unit : ℚ :=
  2 ^ (-23 : ℤ)

theorem unit_pos : 0 < unit := by
  rw [unit]
  positivity

theorem unit_lt_one : unit < 1 := by
  norm_num [unit]

/-- A number with this much room does not overflow by one rounding. -/
theorem growth_lt_overflow {v : ℚ} (hv : v ≤ 2 ^ (126 : ℤ)) : v * (1 + unit) < 2 ^ 128 := by
  have htwo : 1 + unit ≤ 2 := by linarith [unit_lt_one]
  calc v * (1 + unit) ≤ 2 ^ (126 : ℤ) * 2 :=
      mul_le_mul hv htwo (by linarith [unit_pos]) (by positivity)
    _ < 2 ^ 128 := by norm_num

/-- The numbers of the format on both sides of `v`. -/
theorem exists_representable_near {v : ℚ} (hv : 2 ^ (-126 : ℤ) ≤ v) :
    ∃ a b, Representable a ∧ Representable b ∧ v * (1 - unit) ≤ a ∧ a ≤ v ∧ v ≤ b ∧
      b ≤ v * (1 + unit) := by
  have hpos : (0 : ℚ) < v := lt_of_lt_of_le (by positivity) hv
  obtain ⟨k, hlow, hhigh⟩ := exists_mem_Ico_zpow hpos one_lt_two
  have hk : -127 < k := by
    have hlt : (2 : ℚ) ^ (-126 : ℤ) < 2 ^ (k + 1) := hv.trans_lt hhigh
    rw [zpow_lt_zpow_iff_right₀ one_lt_two] at hlt
    omega
  -- in units of the 24th bit `v` lies between two whole numbers of at most 24 bits
  have hpow : (0 : ℚ) < 2 ^ (k - 23) := by positivity
  have hunit : (2 : ℚ) ^ (k - 23) = 2 ^ k * unit := by
    rw [sub_eq_add_neg, zpow_add₀ two_ne_zero]
    rfl
  have hsmall : (2 : ℚ) ^ (k - 23) ≤ v * unit := by
    rw [hunit]
    exact mul_le_mul_of_nonneg_right hlow unit_pos.le
  obtain ⟨x, rfl⟩ : ∃ x, v = x * 2 ^ (k - 23) :=
    ⟨v / 2 ^ (k - 23), (div_mul_cancel₀ v hpow.ne').symm⟩
  have hx : 0 ≤ x := (pos_of_mul_pos_left hpos hpow.le).le
  have hx24 : x ≤ 2 ^ 24 := by
    have hlt : x * 2 ^ (k - 23) < 2 ^ 24 * 2 ^ (k - 23) := by
      refine hhigh.trans_eq ?_
      rw [show k + 1 = 24 + (k - 23) by ring, zpow_add₀ two_ne_zero]
      norm_num
    exact (lt_of_mul_lt_mul_right hlt hpow.le).le
  have hceil : ⌈x⌉₊ ≤ 2 ^ 24 := Nat.ceil_le.mpr (by exact_mod_cast hx24)
  have hfloor : ⌊x⌋₊ ≤ 2 ^ 24 := (Nat.floor_le_ceil x).trans hceil
  refine ⟨⌊x⌋₊ * 2 ^ (k - 23), ⌈x⌉₊ * 2 ^ (k - 23), ⟨_, _, hfloor, by omega, rfl⟩,
    ⟨_, _, hceil, by omega, rfl⟩, ?_, ?_, ?_, ?_⟩
  · have hnext : x - 1 ≤ ⌊x⌋₊ := (Nat.sub_one_lt_floor x).le
    have hscaled := mul_le_mul_of_nonneg_right hnext hpow.le
    linarith
  · exact mul_le_mul_of_nonneg_right (Nat.floor_le hx) hpow.le
  · exact mul_le_mul_of_nonneg_right (Nat.le_ceil x) hpow.le
  · have hnext : (⌈x⌉₊ : ℚ) ≤ x + 1 := (Nat.ceil_lt_add_one hx).le
    have hscaled := mul_le_mul_of_nonneg_right hnext hpow.le
    linarith

end Rounding

namespace Share

open Float.Model (Format UnpackedFloat)
open Float.Model.UnpackedFloat
open Rounding

/-! ## 1. One operation -/

def value (x : Float32) : ℚ :=
  -- Other shares than numbers above zero have no value.
  match x.toModel.unpack with
  | .finite .positive m e _ => m * 2 ^ e
  | _ => 0

theorem HasValue.value_eq {x : Float32} {v : ℚ} (h : HasValue x v) : value x = v := by
  obtain ⟨m, e, hm, hx, rfl⟩ := h
  rw [value, hx]

theorem HasValue.hasValue_value {x : Float32} {v : ℚ} (h : HasValue x v) : HasValue x (value x) :=
  h.value_eq.symm ▸ h

theorem Within.value_bounds {x : Float32} {lo hi : ℚ} (h : Within lo hi x) :
    HasValue x (value x) ∧ lo ≤ value x ∧ value x ≤ hi := by
  obtain ⟨v, hv, hlow, hhigh⟩ := h
  rw [hv.value_eq]
  exact ⟨hv, hlow, hhigh⟩

/-- Whether `x` is `v` but for the errors of `k` operations. -/
def Near (k : ℕ) (v : ℚ) (x : Float32) : Prop :=
  Within (v * (1 - unit) ^ k) (v * (1 + unit) ^ k) x

theorem Within.mono {x : Float32} {lo hi lo' hi' : ℚ} (h : Within lo hi x) (hlo : lo' ≤ lo)
    (hhi : hi ≤ hi') : Within lo' hi' x := by
  obtain ⟨v, hv, hlov, hvhi⟩ := h
  exact ⟨v, hv, hlo.trans hlov, hvhi.trans hhi⟩

/-- Away from the ends of the format a rounded result is near the exact one. -/
theorem IsRounded.near {x : Float32} {v : ℚ} (h : IsRounded x v) (hlo : 2 ^ (-126 : ℤ) ≤ v)
    (hhi : v ≤ 2 ^ (126 : ℤ)) : Near 1 v x := by
  obtain ⟨a, b, ha, hb, hva, hav, hvb, hbv⟩ := exists_representable_near hlo
  have hpos : 0 < v := lt_of_lt_of_le (by positivity) hlo
  have ha0 : 0 < a := lt_of_lt_of_le (mul_pos hpos (sub_pos.mpr unit_lt_one)) hva
  rw [Near, pow_one, pow_one]
  exact (h.within ha hb ha0 (hbv.trans_lt (growth_lt_overflow hhi)) hav hvb).mono hva hbv

/-! ## 2. Sums -/

def exactTotal (shares : List Float32) : ℚ :=
  (shares.map value).sum

def Normal (x : Float32) : Prop :=
  HasValue x (value x) ∧ 2 ^ (-126 : ℤ) ≤ value x

/-- What lies in a normal range is normal. -/
theorem Normal.of_within {x : Float32} {lo hi : ℚ} (h : Within lo hi x)
    (hlo : 2 ^ (-126 : ℤ) ≤ lo) : Normal x := by
  obtain ⟨v, hv, hlov, -⟩ := h
  exact ⟨hv.hasValue_value, hv.value_eq.symm ▸ hlo.trans hlov⟩

theorem Normal.pos {x : Float32} (h : Normal x) : 0 < value x :=
  h.1.pos

theorem exactTotal_cons (x : Float32) (shares : List Float32) :
    exactTotal (x :: shares) = value x + exactTotal shares := by
  rw [exactTotal, List.map_cons, List.sum_cons]
  rfl

theorem exactTotal_nonneg {shares : List Float32} (h : ∀ x ∈ shares, Normal x) :
    0 ≤ exactTotal shares :=
  List.sum_nonneg (List.forall_mem_map.mpr fun x hx => (h x hx).pos.le)

/-- A share is at most the total. -/
theorem value_le_exactTotal {shares : List Float32} (h : ∀ x ∈ shares, Normal x) {x : Float32}
    (hx : x ∈ shares) : value x ≤ exactTotal shares :=
  List.single_le_sum (List.forall_mem_map.mpr fun y hy => (h y hy).pos.le) _
    (List.mem_map_of_mem hx)

/-- Each further summand is good for one more error of the whole sum. -/
theorem near_foldl {shares : List Float32} (h : ∀ x ∈ shares, Normal x) {sum : Float32}
    (hsum : Normal sum)
    (hmax : (value sum + exactTotal shares) * (1 + unit) ^ shares.length ≤ 2 ^ (126 : ℤ)) :
    Near shares.length (value sum + exactTotal shares) (shares.foldl (· + ·) sum) := by
  induction shares generalizing sum with
  | nil =>
    rw [exactTotal, List.map_nil, List.sum_nil, add_zero, Near, List.length_nil, pow_zero, pow_zero,
      mul_one]
    exact ⟨_, hsum.1, le_rfl, le_rfl⟩
  | cons x shares ih =>
    rw [List.forall_mem_cons] at h
    obtain ⟨hx, hshares⟩ := h
    have hrest := exactTotal_nonneg hshares
    have hsum0 := hsum.pos
    have hx0 := hx.pos
    have hup : 1 ≤ 1 + unit := by linarith [unit_pos]
    have hdown : 0 ≤ 1 - unit := by linarith [unit_lt_one]
    rw [exactTotal_cons, ← add_assoc, List.length_cons] at hmax ⊢
    have hstep : Near 1 (value sum + value x) (sum + x) := by
      refine (hsum.1.add hx.1).near (hsum.2.trans (by linarith)) (le_trans ?_ hmax)
      have hone : (1 : ℚ) ≤ (1 + unit) ^ (shares.length + 1) := one_le_pow₀ hup
      calc value sum + value x ≤ value sum + value x + exactTotal shares := by linarith
        _ ≤ _ := le_mul_of_one_le_right (by linarith) hone
    rw [Near, pow_one, pow_one] at hstep
    obtain ⟨w, hw, hlow, hhigh⟩ := hstep
    obtain rfl := hw.value_eq
    -- the error of this step spreads over the whole sum
    have hbelow : (value sum + value x + exactTotal shares) * (1 - unit) ≤
        value (sum + x) + exactTotal shares := by
      linarith [mul_nonneg hrest unit_pos.le]
    have habove : value (sum + x) + exactTotal shares ≤
        (value sum + value x + exactTotal shares) * (1 + unit) := by
      linarith [mul_nonneg hrest unit_pos.le]
    have hnormal : Normal (sum + x) := by
      refine ⟨hw, le_trans ?_ hlow⟩
      have hhalf : unit ≤ 1 / 2 := by norm_num [unit]
      calc (2 : ℚ) ^ (-126 : ℤ) = (2 ^ (-126 : ℤ) + 2 ^ (-126 : ℤ)) * (1 / 2) := by ring
        _ ≤ (value sum + value x) * (1 - unit) :=
          mul_le_mul (add_le_add hsum.2 hx.2) (by linarith) (by norm_num) (by linarith)
    have hpow : (0 : ℚ) ≤ (1 + unit) ^ shares.length := by positivity
    have hnear := ih hshares hnormal (le_trans (mul_le_mul_of_nonneg_right habove hpow) (by
      rwa [mul_assoc, ← pow_succ']))
    refine hnear.mono ?_ ?_
    · rw [pow_succ', ← mul_assoc]
      exact mul_le_mul_of_nonneg_right hbelow (pow_nonneg hdown _)
    · rw [pow_succ', ← mul_assoc]
      exact mul_le_mul_of_nonneg_right habove hpow

theorem Near.mono {x : Float32} {v : ℚ} {j k : ℕ} (h : Near j v x) (hv : 0 ≤ v) (hjk : j ≤ k) :
    Near k v x := by
  have hdown : 0 ≤ 1 - unit := by linarith [unit_lt_one]
  refine Within.mono h (mul_le_mul_of_nonneg_left ?_ hv) (mul_le_mul_of_nonneg_left ?_ hv)
  · exact pow_le_pow_of_le_one hdown (by linarith [unit_pos]) hjk
  · exact pow_le_pow_right₀ (by linarith [unit_pos]) hjk

/-- The computed total is within one rounding for each addition of the exact one. -/
theorem near_total {shares : List Float32} (hne : shares ≠ []) {k : ℕ}
    (hlen : shares.length ≤ k + 1) (h : ∀ x ∈ shares, Normal x)
    (hmax : exactTotal shares * (1 + unit) ^ k ≤ 2 ^ (126 : ℤ)) :
    Near k (exactTotal shares) (total shares) := by
  cases shares with
  | nil => exact absurd rfl hne
  | cons x shares =>
    rw [List.forall_mem_cons] at h
    have hlen' : shares.length ≤ k := Nat.succ_le_succ_iff.mp hlen
    have hsum : 0 ≤ value x + exactTotal shares :=
      add_nonneg h.1.pos.le (exactTotal_nonneg h.2)
    -- a sum starts at the neutral element
    have hfirst : -0.0 + x = x := negZero_add (.inr ⟨_, h.1.1, le_rfl⟩)
    rw [exactTotal_cons] at hmax ⊢
    rw [total, List.foldl_cons, hfirst]
    refine (near_foldl h.2 h.1 (le_trans ?_ hmax)).mono hsum hlen'
    exact mul_le_mul_of_nonneg_left (pow_le_pow_right₀ (by linarith [unit_pos]) hlen') hsum

/-! ## 3. Scaled groups -/

/-- A group that is small enough for its errors to stay below the tolerance, with shares that are
far from the ends of the format. -/
structure Small (shares : List Float32) : Prop where
  ne_nil : shares ≠ []
  length_le : shares.length ≤ 40
  within : ∀ x ∈ shares, Within (2 ^ (-60 : ℤ)) (2 ^ (60 : ℤ)) x

/-- Thirty-nine roundings at most double a number. -/
theorem growth_bounds : 0 ≤ (1 + unit) ^ 39 ∧ (1 + unit) ^ 39 ≤ 2 := by
  constructor <;> norm_num [unit]

/-- Thirty-nine roundings at most halve a number. -/
theorem half_le_decay : 1 / 2 ≤ (1 - unit) ^ 39 := by
  norm_num [unit]

/-- The errors of a total, of the scale, of the scaled shares and of their total stay below the
tolerance. -/
theorem errors_le {p e v : ℚ} (hlow : 100 * (1 - unit) ≤ p * (1 + unit) ^ 39)
    (hup : p * (1 - unit) ^ 39 ≤ 100 * (1 + unit)) (hbelow : p * (1 - unit) ≤ e)
    (habove : e ≤ p * (1 + unit)) (hlov : e * (1 - unit) ^ 39 ≤ v)
    (hvhi : v ≤ e * (1 + unit) ^ 39) : |v - 100| ≤ 2 ^ (-10 : ℤ) := by
  have hgrowth := growth_bounds.1
  have hdecay : 0 < (1 - unit) ^ 39 := lt_of_lt_of_le (by norm_num) half_le_decay
  have hgrowth0 : 0 < (1 + unit) ^ 39 := by
    have := unit_pos
    positivity
  have hmost : 100 * (1 + unit) * ((1 + unit) * (1 + unit) ^ 39) ≤
      (100 + 2 ^ (-10 : ℤ)) * (1 - unit) ^ 39 := by
    norm_num [unit]
  have hleast : (100 - 2 ^ (-10 : ℤ)) * (1 + unit) ^ 39 ≤
      100 * (1 - unit) * ((1 - unit) * (1 - unit) ^ 39) := by
    norm_num [unit]
  have hu := unit_pos
  have hu' := unit_lt_one
  refine abs_sub_le_iff.mpr ⟨?_, ?_⟩
  · have hmul : v * (1 - unit) ^ 39 ≤ (100 + 2 ^ (-10 : ℤ)) * (1 - unit) ^ 39 := by
      calc v * (1 - unit) ^ 39 ≤ p * (1 + unit) * (1 + unit) ^ 39 * (1 - unit) ^ 39 := by
            gcongr
            exact hvhi.trans (mul_le_mul_of_nonneg_right habove hgrowth)
        _ = p * (1 - unit) ^ 39 * ((1 + unit) * (1 + unit) ^ 39) := by ring
        _ ≤ 100 * (1 + unit) * ((1 + unit) * (1 + unit) ^ 39) := by gcongr
        _ ≤ _ := hmost
    linarith [le_of_mul_le_mul_right hmul hdecay]
  · have hmul : (100 - 2 ^ (-10 : ℤ)) * (1 + unit) ^ 39 ≤ v * (1 + unit) ^ 39 := by
      calc (100 - 2 ^ (-10 : ℤ)) * (1 + unit) ^ 39
          ≤ 100 * (1 - unit) * ((1 - unit) * (1 - unit) ^ 39) := hleast
        _ ≤ p * (1 + unit) ^ 39 * ((1 - unit) * (1 - unit) ^ 39) := by
            gcongr
        _ = p * (1 - unit) * (1 - unit) ^ 39 * (1 + unit) ^ 39 := by ring
        _ ≤ v * (1 + unit) ^ 39 := by
            gcongr
            exact (mul_le_mul_of_nonneg_right hbelow hdecay.le).trans hlov
    linarith [le_of_mul_le_mul_right hmul hgrowth0]

namespace Small

variable {shares : List Float32}

theorem normal (h : Small shares) : ∀ x ∈ shares, Normal x := fun x hx =>
  .of_within (h.within x hx) (zpow_le_zpow_right₀ one_le_two (by norm_num))

theorem exactTotal_bounds (h : Small shares) :
    2 ^ (-60 : ℤ) ≤ exactTotal shares ∧ exactTotal shares ≤ 2 ^ (66 : ℤ) := by
  obtain ⟨x, hx⟩ := List.exists_mem_of_ne_nil shares h.ne_nil
  refine ⟨(h.within x hx).value_bounds.2.1.trans (value_le_exactTotal h.normal hx), ?_⟩
  have hsum : exactTotal shares ≤ shares.length • (2 : ℚ) ^ (60 : ℤ) := by
    rw [exactTotal, ← List.length_map value]
    exact List.sum_le_card_nsmul _ _
      (List.forall_mem_map.mpr fun x hx => (h.within x hx).value_bounds.2.2)
  have hlen : (shares.length : ℚ) ≤ 40 := by exact_mod_cast h.length_le
  rw [nsmul_eq_mul] at hsum
  calc exactTotal shares ≤ shares.length * 2 ^ (60 : ℤ) := hsum
    _ ≤ 40 * 2 ^ (60 : ℤ) := mul_le_mul_of_nonneg_right hlen (by positivity)
    _ ≤ 2 ^ (66 : ℤ) := by norm_num

theorem exactTotal_growth (h : Small shares) :
    exactTotal shares * (1 + unit) ^ 39 ≤ 2 ^ (67 : ℤ) :=
  calc exactTotal shares * (1 + unit) ^ 39 ≤ 2 ^ (66 : ℤ) * 2 :=
      mul_le_mul h.exactTotal_bounds.2 growth_bounds.2 growth_bounds.1 (by positivity)
    _ = 2 ^ (67 : ℤ) := by norm_num

theorem total_bounds (h : Small shares) :
    HasValue (total shares) (value (total shares)) ∧
      exactTotal shares * (1 - unit) ^ 39 ≤ value (total shares) ∧
      value (total shares) ≤ exactTotal shares * (1 + unit) ^ 39 :=
  (near_total h.ne_nil h.length_le h.normal (h.exactTotal_growth.trans (by norm_num))).value_bounds

/-- The total and the scale make up the whole but for one error. -/
theorem scale_bounds (h : Small shares) :
    HasValue (whole / total shares) (value (whole / total shares)) ∧
      100 * (1 - unit) ≤ value (total shares) * value (whole / total shares) ∧
      value (total shares) * value (whole / total shares) ≤ 100 * (1 + unit) := by
  obtain ⟨htotal, hlow, hhigh⟩ := h.total_bounds
  have hexact := h.exactTotal_bounds.1
  have hpos := htotal.pos
  have hlow' : 2 ^ (-61 : ℤ) ≤ value (total shares) := by
    calc (2 : ℚ) ^ (-61 : ℤ) = 2 ^ (-60 : ℤ) * (1 / 2) := by norm_num
      _ ≤ exactTotal shares * (1 - unit) ^ 39 :=
        mul_le_mul hexact half_le_decay (by norm_num) (le_trans (by positivity) hexact)
      _ ≤ _ := hlow
  have hhigh' : value (total shares) ≤ 2 ^ (67 : ℤ) := hhigh.trans h.exactTotal_growth
  have hnear : Near 1 (100 / value (total shares)) (whole / total shares) := by
    refine (hasValue_whole.div htotal).near ?_ ?_
    · rw [le_div_iff₀ hpos]
      exact (mul_le_mul_of_nonneg_left hhigh' (by positivity)).trans (by norm_num)
    · rw [div_le_iff₀ hpos]
      exact le_trans (by norm_num) (mul_le_mul_of_nonneg_left hlow' (by positivity))
  rw [Near, pow_one, pow_one] at hnear
  obtain ⟨v, hv, hlov, hvhi⟩ := hnear
  rw [hv.value_eq]
  rw [div_mul_eq_mul_div, div_le_iff₀ hpos] at hlov
  rw [div_mul_eq_mul_div, le_div_iff₀ hpos] at hvhi
  exact ⟨hv, by linarith, by linarith⟩

/-- Without rounding, the scaled shares add up to the whole but for the errors of the total and of
the scale. -/
theorem scaled_exact (h : Small shares) :
    0 < value (whole / total shares) ∧
      100 * (1 - unit) ≤ exactTotal shares * value (whole / total shares) * (1 + unit) ^ 39 ∧
      exactTotal shares * value (whole / total shares) * (1 - unit) ^ 39 ≤ 100 * (1 + unit) := by
  obtain ⟨-, hlow, hhigh⟩ := h.total_bounds
  obtain ⟨hscale, hlow', hhigh'⟩ := h.scale_bounds
  have hpos := hscale.pos
  have hdown := mul_le_mul_of_nonneg_right hlow hpos.le
  have hup := mul_le_mul_of_nonneg_right hhigh hpos.le
  exact ⟨hpos, by linarith, by linarith⟩

/-- Each scaled share is near its part of the whole. -/
theorem near_scaled (h : Small shares) {x : Float32} (hx : x ∈ shares) :
    Near 1 (value x * value (whole / total shares)) (x * (whole / total shares)) ∧
      2 ^ (-125 : ℤ) ≤ value x * value (whole / total shares) := by
  obtain ⟨htotal, -, hhigh⟩ := h.total_bounds
  obtain ⟨hscale, hlow', -⟩ := h.scale_bounds
  obtain ⟨hpos, -, hup⟩ := h.scaled_exact
  obtain ⟨hvalue, hxlow, -⟩ := (h.within x hx).value_bounds
  have hunit : unit ≤ 1 / 2 := by norm_num [unit]
  have hscale' : 2 ^ (-65 : ℤ) ≤ value (whole / total shares) := by
    have hmax := hhigh.trans h.exactTotal_growth
    have hwhole := mul_le_mul_of_nonneg_right hmax hpos.le
    have hfifty : (50 : ℚ) ≤ 2 ^ (67 : ℤ) * value (whole / total shares) := by linarith
    calc (2 : ℚ) ^ (-65 : ℤ) ≤ 2 ^ (-67 : ℤ) * 50 := by norm_num
      _ ≤ 2 ^ (-67 : ℤ) * (2 ^ (67 : ℤ) * value (whole / total shares)) := by gcongr
      _ = value (whole / total shares) := by
        rw [← mul_assoc, ← zpow_add₀ two_ne_zero]
        norm_num
  have hlow : 2 ^ (-125 : ℤ) ≤ value x * value (whole / total shares) := by
    calc (2 : ℚ) ^ (-125 : ℤ) = 2 ^ (-60 : ℤ) * 2 ^ (-65 : ℤ) := by norm_num
      _ ≤ _ := mul_le_mul hxlow hscale' (by positivity) (le_trans (by positivity) hxlow)
  have hhigh' : value x * value (whole / total shares) ≤ 2 ^ (126 : ℤ) := by
    have hpart := mul_le_mul_of_nonneg_right (value_le_exactTotal h.normal hx) hpos.le
    have hall : exactTotal shares * value (whole / total shares) * (1 / 2) ≤ 100 * (1 + unit) :=
      (mul_le_mul_of_nonneg_left half_le_decay
        (mul_nonneg (exactTotal_nonneg h.normal) hpos.le)).trans hup
    exact le_trans (b := (300 : ℚ)) (by linarith) (by norm_num)
  exact ⟨(hvalue.mul hscale).near (le_trans (by norm_num) hlow) hhigh', hlow⟩

/-- The rescaled shares of a small group add up to a hundred, but for a thousandth. -/
theorem scaled_total (h : Small shares) :
    ∃ v, HasValue (total (shares.map (· * (whole / total shares)))) v ∧
      |v - 100| ≤ 2 ^ (-10 : ℤ) := by
  obtain ⟨hpos, hlow, hup⟩ := h.scaled_exact
  set scale := whole / total shares with hscale
  have hnear : ∀ x ∈ shares, HasValue (x * scale) (value (x * scale)) ∧
      value x * value scale * (1 - unit) ≤ value (x * scale) ∧
      value (x * scale) ≤ value x * value scale * (1 + unit) := by
    intro x hx
    obtain ⟨v, hv, hlov, hvhi⟩ := (h.near_scaled hx).1
    rw [pow_one] at hlov hvhi
    exact hv.value_eq.symm ▸ ⟨hv, hlov, hvhi⟩
  have hsum : ∀ r : ℚ, (shares.map fun x => value x * value scale * r).sum =
      exactTotal shares * value scale * r := by
    intro r
    rw [List.sum_map_mul_right, List.sum_map_mul_right]
    rfl
  have hexact : exactTotal (shares.map (· * scale)) =
      (shares.map fun x => value (x * scale)).sum := by
    rw [exactTotal, List.map_map]
    rfl
  have hbelow : exactTotal shares * value scale * (1 - unit) ≤
      exactTotal (shares.map (· * scale)) := by
    rw [hexact, ← hsum]
    exact List.sum_le_sum fun x hx => (hnear x hx).2.1
  have habove : exactTotal (shares.map (· * scale)) ≤
      exactTotal shares * value scale * (1 + unit) := by
    rw [hexact, ← hsum]
    exact List.sum_le_sum fun x hx => (hnear x hx).2.2
  have hnormal : ∀ y ∈ shares.map (· * scale), Normal y := by
    refine List.forall_mem_map.mpr fun x hx => .of_within (h.near_scaled hx).1 ?_
    have hhalf : (1 : ℚ) / 2 ≤ (1 - unit) ^ 1 := by norm_num [unit]
    calc (2 : ℚ) ^ (-126 : ℤ) = 2 ^ (-125 : ℤ) * (1 / 2) := by norm_num
      _ ≤ _ := mul_le_mul (h.near_scaled hx).2 hhalf (by norm_num)
        (le_trans (by positivity) (h.near_scaled hx).2)
  have hmax : exactTotal (shares.map (· * scale)) * (1 + unit) ^ 39 ≤ 2 ^ (126 : ℤ) := by
    have hp : 0 ≤ exactTotal shares * value scale := mul_nonneg (exactTotal_nonneg h.normal) hpos.le
    have hall := (mul_le_mul_of_nonneg_left half_le_decay hp).trans hup
    have hunit : unit ≤ 1 / 2 := by norm_num [unit]
    have hwhole : exactTotal (shares.map (· * scale)) ≤ 1000 := by
      refine habove.trans ?_
      calc exactTotal shares * value scale * (1 + unit)
          ≤ exactTotal shares * value scale * 2 := by gcongr; linarith
        _ ≤ 1000 := by linarith
    exact (mul_le_mul hwhole growth_bounds.2 growth_bounds.1 (by norm_num)).trans (by norm_num)
  obtain ⟨v, hv, hlov, hvhi⟩ := near_total (mt List.map_eq_nil_iff.mp h.ne_nil)
    (by rw [List.length_map]; exact h.length_le) hnormal hmax
  exact ⟨v, hv, errors_le hlow hup hbelow habove hlov hvhi⟩

end Small

/-! ## 4. Settled totals -/

theorem unpack_abs {x : Float32} {s : Sign} {m : ℕ} {e : ℤ} (hx : x.toModel.unpack = ofParts s m e)
    (h : Canonical m e) (he : e ≤ 104) : x.abs.toModel.unpack = ofParts .positive m e := by
  have habs : (ofParts s m e).abs = ofParts .positive m e := by
    rw [ofParts, ofParts]
    split <;> rfl
  have hpack := unpack_ofParts .positive h he
  rw [← habs, ← hx] at hpack
  exact hpack.trans (by rw [hx, habs])

/-- The distance of two numbers, where it is no more than `b`. -/
theorem HasValue.abs_sub {x y : Float32} {v w b : ℚ} (hx : HasValue x v) (hy : HasValue y w)
    (hb : Representable b) (hmax : b < 2 ^ 128) (h : |v - w| ≤ b) :
    ∃ m e, (x - y).abs.toModel.unpack = ofParts .positive m e ∧ Canonical m e ∧ m * 2 ^ e ≤ b := by
  obtain ⟨m₁, e₁, hm₁, hx, rfl⟩ := hx
  obtain ⟨m₂, e₂, hm₂, hy, rfl⟩ := hy
  generalize ht : min e₁ e₂ = t
  obtain ⟨k₁, hk₁⟩ := Int.eq_ofNat_of_zero_le (sub_nonneg.mpr (ht ▸ min_le_left .. : t ≤ e₁))
  obtain ⟨k₂, hk₂⟩ := Int.eq_ofNat_of_zero_le (sub_nonneg.mpr (ht ▸ min_le_right .. : t ≤ e₂))
  -- both significands are brought to the lower of the two exponents
  have hvalue : ∀ (m : ℕ) (e : ℤ) (k : ℕ), e - t = k →
      (m * 2 ^ e : ℚ) = ((m <<< k : ℕ) : ℚ) * 2 ^ t := by
    intro m e k hk
    rw [← shiftLeft_value m e k]
    congr 2
    omega
  rw [hvalue m₁ e₁ k₁ hk₁, hvalue m₂ e₂ k₂ hk₂] at h
  have hsub : (x - y).toModel = .pack (UnpackedFloat.normalize Format.binary32
      ((m₁ <<< k₁ : ℕ) - (m₂ <<< k₂ : ℕ) : ℤ) t .positive) := by
    show Float32.Model.pack (UnpackedFloat.sub Format.binary32 x.toModel.unpack
      y.toModel.unpack) = _
    rw [hx, hy, UnpackedFloat.sub, ht, decreaseExponent, hk₁, decreaseExponent, hk₂]
    rfl
  generalize m₁ <<< k₁ = n₁ at h hsub
  generalize m₂ <<< k₂ = n₂ at h hsub
  -- whichever is larger, the difference is rounded and loses its sign
  have hround : ∀ (s : Sign) (n : ℕ), 0 < n → (n * 2 ^ t : ℚ) ≤ b →
      (x - y).toModel = .pack (UnpackedFloat.round Format.binary32 s n t) →
      ∃ m e, (x - y).abs.toModel.unpack = ofParts .positive m e ∧ Canonical m e ∧
        (m * 2 ^ e : ℚ) ≤ b := by
    intro s n hn hle hxy
    obtain ⟨m, e, hparts, hm, hv⟩ := exists_round hn t s
    have hle' := (hv b hb).1 hle
    have he := hm.lt_overflow_iff.mp (hle'.trans_lt hmax)
    have hunpack : (x - y).toModel.unpack = ofParts s m e := by
      rw [hxy, hparts]
      exact unpack_ofParts s hm he
    exact ⟨m, e, unpack_abs hunpack hm he, hm, hle'⟩
  rw [← sub_mul] at h
  rw [UnpackedFloat.normalize] at hsub
  rcases lt_trichotomy n₁ n₂ with hlt | rfl | hlt
  · have hdiff : -((n₁ : ℤ) - n₂) = (n₂ - n₁ : ℕ) := by omega
    rw [compare_lt_iff_lt.mpr (by omega : (n₁ : ℤ) - n₂ < 0), hdiff, Int.toNat_natCast] at hsub
    refine hround .negative (n₂ - n₁) (by omega) ?_ hsub
    rw [Nat.cast_sub hlt.le, ← neg_sub, neg_mul]
    exact (neg_le_abs _).trans h
  · -- no difference at all is the significand zero at the least exponent
    have hzero : Canonical 0 (-149) := ⟨by norm_num, le_rfl, .inr rfl⟩
    have hpack : (x - y).toModel = .pack (ofParts .positive 0 (-149)) := by
      rw [hsub, sub_self, compare_eq_iff_eq.mpr rfl]
      rfl
    have hunpack : (x - y).toModel.unpack = ofParts .positive 0 (-149) := by
      rw [hpack]
      exact unpack_ofParts .positive hzero (by norm_num)
    refine ⟨0, -149, unpack_abs hunpack hzero (by norm_num), hzero, ?_⟩
    rw [Nat.cast_zero, zero_mul]
    exact (abs_nonneg _).trans h
  · have hdiff : (n₁ : ℤ) - n₂ = (n₁ - n₂ : ℕ) := by omega
    rw [compare_gt_iff_gt.mpr (by omega : (n₁ : ℤ) - n₂ > 0), hdiff, Int.toNat_natCast] at hsub
    refine hround .positive (n₁ - n₂) (by omega) ?_ hsub
    rw [Nat.cast_sub hlt.le]
    exact (le_abs_self _).trans h

/-- A total that near to a hundred is within the tolerance. -/
theorem abs_sub_whole_lt {x : Float32} {v : ℚ} (hx : HasValue x v)
    (h : |v - 100| ≤ 2 ^ (-10 : ℤ)) : (x - whole).abs < tolerance := by
  have hrep : Representable (2 ^ (-10 : ℤ)) := by
    simpa using representable_two_pow (k := -10) (n := 1) (by norm_num) (by norm_num)
  obtain ⟨m, e, hunpack, hm, hle⟩ := hx.abs_sub hasValue_whole hrep (by norm_num) h
  have htolerance : tolerance = .ofModel (.pack (ofParts .positive 8589935 (-33))) := by
    decide +kernel
  have hcanonical : Canonical 8589935 (-33) := ⟨by norm_num, by norm_num, .inl (by norm_num)⟩
  have hlt : (m * 2 ^ e : ℚ) < (8589935 : ℕ) * 2 ^ (-33 : ℤ) := hle.trans_lt (by norm_num)
  rw [lt_iff, hunpack, htolerance, unpack_ofParts _ hcanonical (by norm_num), ofParts]
  split
  · rfl
  · show some ((compare e (-33)).then (compare m 8589935)) = some .lt
    -- the larger exponent would go with the larger number
    have he : e ≤ -33 := not_lt.mp fun hgt => (hcanonical.lt_of_lt hm hgt).not_gt hlt
    rcases he.lt_or_eq with he | rfl
    · rw [compare_lt_iff_lt.mpr he]
      rfl
    · have hm' : m < 8589935 := by exact_mod_cast lt_of_mul_lt_mul_right hlt (by positivity)
      rw [compare_eq_iff_eq.mpr rfl, compare_lt_iff_lt.mpr hm']
      rfl

theorem repair_eq {shares : List Float32} (h : ∀ x ∈ shares, usable x) : repair shares = shares := by
  rw [repair]
  exact (List.map_congr_left fun x hx => if_pos (h x hx)).trans (List.map_id' shares)

/-- A group whose total is the whole, or cannot be scaled, is left alone. -/
theorem normalize_of_settled {shares : List Float32} (h : ∀ x ∈ shares, usable x)
    (hsettled : rescale shares = shares) : normalize shares = shares := by
  rw [normalize, repair_eq h, hsettled]

/-- To normalize a small group once more changes nothing. -/
theorem Small.normalize_normalize {shares : List Float32} (h : Small (repair shares)) :
    normalize (normalize shares) = normalize shares := by
  have husable : ∀ x ∈ normalize shares, usable x :=
    usable_rescale h.ne_nil (h.length_le.trans (by norm_num)) h.within
  refine normalize_of_settled husable ?_
  rw [normalize]
  by_cases hscales : total (repair shares) ≤ 0.0 || !(total (repair shares)).isFinite ||
      (total (repair shares) - whole).abs < tolerance
  · have hleft : rescale (repair shares) = repair shares := if_pos hscales
    rw [hleft, hleft]
  · have hscaled : rescale (repair shares) =
        (repair shares).map (· * (whole / total (repair shares))) := if_neg hscales
    obtain ⟨v, hv, hnear⟩ := h.scaled_total
    rw [hscaled]
    refine if_pos ?_
    rw [Bool.or_eq_true, decide_eq_true_iff]
    exact .inr (abs_sub_whole_lt hv hnear)

theorem normalize_normalize {shares : List Float32} (hlen : shares.length ≤ 40)
    (h : ∀ x ∈ shares, Scalable x) : normalize (normalize shares) = normalize shares := by
  by_cases hnil : shares = []
  · subst hnil
    rfl
  · refine Small.normalize_normalize ⟨?_, ?_, within_repair (hlen.trans (by norm_num)) h⟩
    · exact mt List.map_eq_nil_iff.mp hnil
    · rwa [length_repair]

end Share

end Tiling
