import Tiling.Proofs.Layout
import Tiling.Proofs.SignedNumbers

/-!
# Dividing an extent

Each child but the last gets its part of the extent, rounded, and the last one gets what is left.
While the last share is not too small a part of its group, the errors add up to less than that part,
so that something is left for the last child.
-/

namespace Tiling

open Rounding

/-! ## 1. Many errors -/

namespace Rounding

/-- The decay by n roundings is at least one without n units. -/
theorem one_sub_le_decay (n : ℕ) : 1 - n * unit ≤ (1 - unit) ^ n := by
  have hbernoulli := one_add_mul_le_pow (a := -unit) (by linarith [unit_lt_one]) n
  rwa [mul_neg, ← sub_eq_add_neg, ← sub_eq_add_neg] at hbernoulli

theorem growth_mul_decay_le (n : ℕ) : (1 + unit) ^ n * (1 - unit) ^ n ≤ 1 := by
  have hu := unit_pos
  have hu' := unit_lt_one
  rw [← mul_pow]
  refine pow_le_one₀ (mul_nonneg (by linarith) (by linarith)) ?_
  linarith [mul_pos hu hu]

theorem half_le_decay_of_le {n : ℕ} (h : n * unit ≤ 1 / 8) : 1 / 2 ≤ (1 - unit) ^ n := by
  linarith [one_sub_le_decay n]

theorem growth_le_of_le {n : ℕ} (h : n * unit ≤ 1 / 8) : (1 + unit) ^ n ≤ 3 / 2 := by
  have hgrowth : 0 ≤ (1 + unit) ^ n := pow_nonneg (by linarith [unit_pos]) n
  have hdecay : 7 / 8 ≤ (1 - unit) ^ n := by linarith [one_sub_le_decay n]
  have hscaled := mul_le_mul_of_nonneg_left hdecay hgrowth
  linarith [growth_mul_decay_le n]

/-- The errors of a total and of the parts of it take up less than half of the part `2 * a`. -/
theorem room_for_last {n : ℕ} {a : ℚ} (hn : 1 ≤ n) (ha : a ≤ 1 / 2) (h : n * unit ≤ a / 4) :
    (1 - 2 * a) * (1 + unit) ^ (n + 1) ≤ (1 - 5 / 4 * a) * (1 - unit) ^ n := by
  have hu := unit_pos
  have hd : 0 < 1 - unit := sub_pos.mpr unit_lt_one
  have hn' : (1 : ℚ) ≤ n := by exact_mod_cast hn
  have hcount : ((2 * n + 1 : ℕ) : ℚ) * unit ≤ 3 / 4 * a := by
    have hone := mul_le_mul_of_nonneg_right hn' hu.le
    push_cast
    linarith
  have ha0 : 0 ≤ a := by
    have hnu := mul_nonneg (zero_le_one.trans hn') hu.le
    linarith
  refine le_of_mul_le_mul_right ?_ (pow_pos hd (n + 1))
  calc (1 - 2 * a) * (1 + unit) ^ (n + 1) * (1 - unit) ^ (n + 1)
      = (1 - 2 * a) * ((1 + unit) ^ (n + 1) * (1 - unit) ^ (n + 1)) := mul_assoc ..
    _ ≤ 1 - 2 * a := mul_le_of_le_one_right (by linarith) (growth_mul_decay_le _)
    _ ≤ (1 - 5 / 4 * a) * (1 - 3 / 4 * a) := by linarith [mul_nonneg ha0 ha0]
    _ ≤ (1 - 5 / 4 * a) * (1 - unit) ^ (2 * n + 1) := by
      refine mul_le_mul_of_nonneg_left ?_ (by linarith)
      linarith [one_sub_le_decay (2 * n + 1)]
    _ = (1 - 5 / 4 * a) * (1 - unit) ^ n * (1 - unit) ^ (n + 1) := by
      rw [mul_assoc, ← pow_add]
      congr 2
      omega

theorem representable_abs_two_pow {k : ℤ} (hk : -149 ≤ k) : Representable |(2 : ℚ) ^ k| := by
  rw [abs_of_pos (by positivity)]
  exact ⟨1, k, by norm_num, hk, by rw [Nat.cast_one, one_mul]⟩

end Rounding

/-! ## 2. Groups that can divide an extent -/

namespace Share

/-- Whether all shares of a group are moderate, and what the last one is due is more than the errors
of so many shares. -/
structure Divisible (shares : List Float32) : Prop where
  moderate : ∀ x ∈ shares, moderate x
  last : ∀ x ∈ shares.getLast?, shares.length * exactTotal shares ≤ 2 ^ 20 * value x

def margin (shares : List Float32) : ℚ :=
  shares.getLast?.elim 0 value / (2 * exactTotal shares)

def halfPart (k : ℕ) : ℚ :=
  2 ^ (-(k + 1) : ℤ)

theorem two_pow_add_eq (q k : ℕ) :
    (2 : ℚ) ^ (-(q + (k + 1) : ℕ) : ℤ) = 2 ^ (-q : ℤ) * halfPart k := by
  rw [halfPart, ← zpow_add₀ two_ne_zero]
  push_cast
  congr 1
  ring

theorem halfPart_pos (k : ℕ) : 0 < halfPart k := by
  rw [halfPart]
  positivity

theorem two_pow_mul_halfPart (k : ℕ) : 2 ^ k * (2 * halfPart k) = 1 := by
  rw [halfPart, neg_add, zpow_add₀ two_ne_zero, zpow_neg, zpow_natCast]
  field_simp

/-- A share that is not too small a part of the total is at least twice the half part of it. -/
theorem halfPart_le_value {k : ℕ} {shares : List Float32} {x : Float32}
    (h : exactTotal shares ≤ 2 ^ k * value x) : 2 * halfPart k * exactTotal shares ≤ value x := by
  have hscaled := mul_le_mul_of_nonneg_left h (mul_pos two_pos (halfPart_pos k)).le
  rwa [← mul_assoc, mul_comm _ ((2 : ℚ) ^ k), two_pow_mul_halfPart, one_mul] at hscaled

theorem exactTotal_append (shares rest : List Float32) :
    exactTotal (shares ++ rest) = exactTotal shares + exactTotal rest := by
  rw [exactTotal, List.map_append, List.sum_append]
  rfl

namespace Divisible

variable {shares : List Float32}

theorem value_bounds (h : Divisible shares) {x : Float32} (hx : x ∈ shares) :
    HasValue x (value x) ∧ 2 ^ (-60 : ℤ) ≤ value x ∧ value x ≤ 2 ^ (60 : ℤ) :=
  (within_of_moderate (h.moderate x hx)).value_bounds

theorem normal (h : Divisible shares) : ∀ x ∈ shares, Normal x := fun x hx =>
  .of_within (within_of_moderate (h.moderate x hx)) (by norm_num)

theorem exactTotal_pos (h : Divisible shares) (hne : shares ≠ []) : 0 < exactTotal shares :=
  (h.normal _ (List.getLast_mem hne)).pos.trans_le
    (value_le_exactTotal h.normal (List.getLast_mem hne))

/-- The margin is half the part of the last share. -/
theorem value_getLast (h : Divisible shares) (hne : shares ≠ []) :
    value (shares.getLast hne) = 2 * margin shares * exactTotal shares := by
  have hpos := h.exactTotal_pos hne
  rw [margin, List.getLast?_eq_some_getLast hne, Option.elim_some]
  field_simp

/-- All shares but the last. -/
theorem exactTotal_dropLast (h : Divisible shares) (hne : shares ≠ []) :
    exactTotal shares.dropLast = exactTotal shares * (1 - 2 * margin shares) := by
  have hsplit : exactTotal shares =
      exactTotal shares.dropLast + value (shares.getLast hne) := by
    conv_lhs => rw [← List.dropLast_append_getLast hne, exactTotal_append]
    simp [exactTotal]
  linarith [h.value_getLast hne]

theorem margin_le_half (h : Divisible shares) (hne : shares ≠ []) : margin shares ≤ 1 / 2 := by
  have hlast := value_le_exactTotal h.normal (List.getLast_mem hne)
  rw [h.value_getLast hne] at hlast
  linarith [(mul_le_iff_le_one_left (h.exactTotal_pos hne)).mp hlast]

theorem halfPart_le_margin (h : Divisible shares) (hne : shares ≠ []) {k : ℕ}
    (hk : exactTotal shares ≤ 2 ^ k * value (shares.getLast hne)) : halfPart k ≤ margin shares := by
  have hpart := halfPart_le_value hk
  rw [h.value_getLast hne, mul_assoc, mul_assoc] at hpart
  exact le_of_mul_le_mul_right (le_of_mul_le_mul_left hpart two_pos) (h.exactTotal_pos hne)

/-- The shares are few enough for their rounding errors to stay within a quarter of the margin. -/
theorem length_mul_unit (h : Divisible shares) (hne : shares ≠ []) :
    shares.length * unit ≤ margin shares / 4 := by
  have hlast := h.last _ (List.getLast?_eq_some_getLast hne)
  rw [h.value_getLast hne, ← mul_assoc] at hlast
  have hlen := le_of_mul_le_mul_right hlast (h.exactTotal_pos hne)
  calc shares.length * unit ≤ 2 ^ 20 * (2 * margin shares) * unit :=
      mul_le_mul_of_nonneg_right hlen unit_pos.le
    _ = margin shares / 4 := by
      rw [unit]
      norm_num
      ring

theorem length_mul_unit_le (h : Divisible shares) (hne : shares ≠ []) :
    shares.length * unit ≤ 1 / 8 := by
  linarith [h.length_mul_unit hne, h.margin_le_half hne]

theorem margin_pos (h : Divisible shares) (hne : shares ≠ []) : 0 < margin shares := by
  have hlen : (0 : ℚ) < shares.length := by exact_mod_cast List.length_pos_of_ne_nil hne
  linarith [h.length_mul_unit hne, mul_pos hlen unit_pos]

theorem exactTotal_le (h : Divisible shares) (hne : shares ≠ []) :
    exactTotal shares ≤ 2 ^ (80 : ℤ) := by
  have hlen : (1 : ℚ) ≤ shares.length := by exact_mod_cast List.length_pos_of_ne_nil hne
  calc exactTotal shares ≤ shares.length * exactTotal shares :=
      le_mul_of_one_le_left (h.exactTotal_pos hne).le hlen
    _ ≤ 2 ^ 20 * value (shares.getLast hne) := h.last _ (List.getLast?_eq_some_getLast hne)
    _ ≤ 2 ^ 20 * 2 ^ (60 : ℤ) :=
      mul_le_mul_of_nonneg_left (h.value_bounds (List.getLast_mem hne)).2.2 (by positivity)
    _ = 2 ^ (80 : ℤ) := by norm_num

/-- The total of a group that is not empty, with an error for each share. -/
theorem total_bounds (h : Divisible shares) (hne : shares ≠ []) :
    HasValue (total shares) (value (total shares)) ∧
      exactTotal shares * (1 - unit) ^ shares.length ≤ value (total shares) ∧
      value (total shares) ≤ exactTotal shares * (1 + unit) ^ shares.length := by
  have hmax : exactTotal shares * (1 + unit) ^ shares.length ≤ 2 ^ (126 : ℤ) := by
    refine (mul_le_mul (h.exactTotal_le hne) (growth_le_of_le (h.length_mul_unit_le hne)) ?_
      (by positivity)).trans (by norm_num)
    exact pow_nonneg (by linarith [unit_pos]) _
  exact (near_total hne (Nat.le_succ _) h.normal hmax).value_bounds

/-- The computed total is within a half of the exact one. -/
theorem total_value_bounds (h : Divisible shares) (hne : shares ≠ []) :
    exactTotal shares * (1 / 2) ≤ value (total shares) ∧
      value (total shares) ≤ exactTotal shares * (3 / 2) := by
  obtain ⟨-, hlow, hhigh⟩ := h.total_bounds hne
  have hpos := (h.exactTotal_pos hne).le
  have herrors := h.length_mul_unit_le hne
  exact ⟨(mul_le_mul_of_nonneg_left (half_le_decay_of_le herrors) hpos).trans hlow,
    hhigh.trans (mul_le_mul_of_nonneg_left (growth_le_of_le herrors) hpos)⟩

/-- A share is not much more than all of the rounded total. -/
theorem value_le_total (h : Divisible shares) {x : Float32} (hx : x ∈ shares) :
    value x ≤ 2 * value (total shares) := by
  linarith [(h.total_value_bounds (List.ne_nil_of_mem hx)).1, value_le_exactTotal h.normal hx]

/-- A share is not much less than its part of the rounded total. -/
theorem halfPart_le_total (h : Divisible shares) {x : Float32} (hx : x ∈ shares) {k : ℕ}
    (hk : exactTotal shares ≤ 2 ^ k * value x) :
    halfPart k * value (total shares) ≤ value x * (1 - unit) := by
  have hscaled := mul_le_mul_of_nonneg_left (h.total_value_bounds (List.ne_nil_of_mem hx)).2
    (halfPart_pos k).le
  have hunit : value x * (3 / 4) ≤ value x * (1 - unit) :=
    mul_le_mul_of_nonneg_left (by norm_num [unit]) (h.normal x hx).pos.le
  linarith [halfPart_le_value hk]

end Divisible

theorem hasValue_of_value_pos {x : Float32} (h : 0 < value x) : HasValue x (value x) := by
  rw [value] at h ⊢
  split at h
  · next m e hm hx => exact ⟨m, e, hm, hx, rfl⟩
  · exact absurd h (lt_irrefl 0)

theorem HasValue.isNumber {x : Float32} {v : ℚ} (h : HasValue x v) : IsNumber x v := by
  obtain ⟨m, e, hm, hx, rfl⟩ := h
  obtain ⟨hc, he⟩ := canonical_of_unpack hx
  refine ⟨.positive, m, e, ?_, hc, he, (one_mul _).symm⟩
  rw [hx, ofParts, dif_neg hm.ne']

end Share

/-! ## 3. One span -/

/-- Whether `x` is the length `v`, which is at least `2 ^ (-q)` if it is not zero. -/
structure IsLength (q : ℕ) (x : Float32) (v : ℚ) : Prop where
  number : IsNumber x v
  room : v = 0 ∨ 2 ^ (-q : ℤ) ≤ v
  le : v ≤ 2 ^ 20

theorem IsLength.nonneg {q : ℕ} {x : Float32} {v : ℚ} (h : IsLength q x v) : 0 ≤ v := by
  rcases h.room with rfl | hle
  · exact le_rfl
  · exact le_trans (by positivity) hle

/-- Rounding does not take a length below a power of two. Below the least unit there is only
zero. -/
theorem Rounding.SignedRoundsTo.room {x : Float32} {v w : ℚ} (h : SignedRoundsTo v w)
    (hw : IsNumber x w) {q : ℕ} (hv : v = 0 ∨ 2 ^ (-q : ℤ) ≤ v) : w = 0 ∨ 2 ^ (-q : ℤ) ≤ w := by
  rcases hv with rfl | hv
  · exact .inl (h.eq representable_zero)
  rcases le_or_gt q 149 with hq | hq
  · exact .inr ((h _ (representable_abs_two_pow (by omega))).2 hv)
  · have hw0 : 0 ≤ w := (h 0 representable_zero).2 (le_trans (by positivity) hv)
    obtain ⟨n, rfl⟩ := hw.exists_units
    have hstep : (0 : ℚ) < 2 ^ (-149 : ℤ) := by positivity
    have hn : 0 ≤ n := by exact_mod_cast nonneg_of_mul_nonneg_left hw0 hstep
    rcases hn.eq_or_lt with rfl | hn
    · exact .inl (by rw [Int.cast_zero, zero_mul])
    · have hn' : (1 : ℚ) ≤ n := by exact_mod_cast hn
      exact .inr ((zpow_le_zpow_right₀ one_le_two (by omega)).trans
        (le_mul_of_one_le_left hstep.le hn'))

namespace Division

/-- Whether the extent is a length and is divided among these shares. -/
structure Regular (d : Division) (q : ℕ) (shares : List Float32) (e : ℚ) : Prop where
  total_eq : d.total = Share.total shares
  divisible : Share.Divisible shares
  extent : IsLength q d.extent e
  room : q ≤ 60

/-- What a share's part of an extent can be at most, with the errors of a product and of a quotient.
The last summand is a least unit as a part of the least extent. -/
def maxPart (total : ℚ) (x : Float32) : ℚ :=
  Share.value x / total * (1 + unit) ^ 2 + 2 ^ (-89 : ℤ)

variable {d : Division} {q : ℕ} {shares : List Float32} {e : ℚ}

namespace Regular

theorem span_eq (h : d.Regular q shares e) {x : Float32} (hx : x ∈ shares) :
    d.span x = d.extent * x / Share.total shares := by
  have hpos : ∀ {y : Float32} {v : ℚ}, Share.HasValue y v → 0.0 < y := fun hy =>
    (isNumber_zero.lt_iff (.inl hy.isNumber)).mpr hy.pos
  have htotal := (h.divisible.total_bounds (List.ne_nil_of_mem hx)).1
  rw [Division.span, Share.weight, if_pos (hpos (h.divisible.value_bounds hx).1), h.total_eq,
    if_pos (hpos htotal)]

theorem sized (h : d.Regular q shares e) : e = 0 ∨ 2 ^ (-60 : ℤ) ≤ e :=
  h.extent.room.imp_right fun hle =>
    (zpow_le_zpow_right₀ one_le_two (by have hroom := h.room; omega)).trans hle

/-- The product of extent and share, within one rounding. -/
theorem exists_product (h : d.Regular q shares e) {x : Float32} (hx : x ∈ shares) :
    ∃ p, IsNumber (d.extent * x) p ∧ e * Share.value x * (1 - unit) ≤ p ∧
      p ≤ e * Share.value x * (1 + unit) := by
  obtain ⟨hvalue, hlow, hhigh⟩ := h.divisible.value_bounds hx
  have he0 := h.extent.nonneg
  have hsmall : e * Share.value x ≤ 2 ^ 20 * 2 ^ (60 : ℤ) :=
    mul_le_mul h.extent.le hhigh hvalue.pos.le (by positivity)
  have hlarge : e * Share.value x = 0 ∨ 2 ^ (-126 : ℤ) ≤ e * Share.value x :=
    h.sized.imp (fun h0 => by rw [h0, zero_mul]) fun hle =>
      le_trans (by norm_num) (mul_le_mul hle hlow (by positivity) he0)
  obtain ⟨p, hp, -, hplow, hphigh⟩ := (h.extent.number.mul hvalue.isNumber).near hlarge
    (hsmall.trans (by norm_num))
  exact ⟨p, hp, hplow, hphigh⟩

/-- The part of the extent before it is rounded once more. -/
theorem exists_quotient (h : d.Regular q shares e) {x : Float32} (hx : x ∈ shares) :
    ∃ v, IsResult (d.span x) v ∧ v ≤ 2 ^ (126 : ℤ) ∧
      e * (Share.value x * (1 - unit) / Share.value (Share.total shares)) ≤ v ∧
      v ≤ e * (Share.value x / Share.value (Share.total shares) * (1 + unit)) := by
  have hu := unit_pos
  have htotal := (h.divisible.total_bounds (List.ne_nil_of_mem hx)).1
  have hwhole := h.divisible.value_le_total hx
  obtain ⟨p, hp, hplow, hphigh⟩ := h.exists_product hx
  rw [h.span_eq hx]
  have ht := htotal.pos
  have hs := (h.divisible.normal x hx).pos
  have hresult := hp.div htotal.isNumber ht.ne'
  generalize Share.value (Share.total shares) = t at *
  generalize Share.value x = s at *
  refine ⟨p / t, hresult, ?_, ?_, ?_⟩
  · rw [div_le_iff₀ ht]
    calc p ≤ e * s * (1 + unit) := hphigh
      _ ≤ 2 ^ 20 * (2 * t) * 2 :=
        mul_le_mul (mul_le_mul h.extent.le hwhole hs.le (by positivity)) (by norm_num [unit])
          (by positivity) (by positivity)
      _ = 2 ^ 22 * t := by ring
      _ ≤ 2 ^ (126 : ℤ) * t := mul_le_mul_of_nonneg_right (by norm_num) ht.le
  · rw [← mul_div_assoc, ← mul_assoc]
    exact div_le_div_of_nonneg_right hplow ht.le
  · rw [div_mul_eq_mul_div, ← mul_div_assoc, ← mul_assoc]
    exact div_le_div_of_nonneg_right hphigh ht.le

/-- A span is the share's part of the extent but for the errors, and a large enough share leaves
enough room. -/
theorem exists_span (h : d.Regular q shares e) {x : Float32} (hx : x ∈ shares) :
    ∃ w, IsNumber (d.span x) w ∧ 0 ≤ w ∧
      w ≤ e * maxPart (Share.value (Share.total shares)) x ∧
      ∀ k : ℕ, Share.exactTotal shares ≤ 2 ^ k * Share.value x →
        w = 0 ∨ 2 ^ (-(q + (k + 1) : ℕ) : ℤ) ≤ w := by
  have hu := unit_pos
  have hs := (h.divisible.normal x hx).pos
  have ht := (h.divisible.total_bounds (List.ne_nil_of_mem hx)).1.pos
  have hparts := fun k => h.divisible.halfPart_le_total hx (k := k)
  obtain ⟨v, hv, hmax, hlow, hhigh⟩ := h.exists_quotient hx
  generalize Share.value (Share.total shares) = t at *
  have hpart : 0 ≤ Share.value x * (1 - unit) / t :=
    div_nonneg (mul_nonneg hs.le (by linarith [unit_lt_one])) ht.le
  have hv0 : 0 ≤ v := (mul_nonneg h.extent.nonneg hpart).trans hlow
  have hzero : e = 0 → v = 0 := by
    rintro rfl
    exact le_antisymm (by rwa [zero_mul] at hhigh) hv0
  obtain ⟨w, hw, hround, hle⟩ := hv.exists_le hv0 hmax
  refine ⟨w, hw, (hround 0 representable_zero).2 hv0, ?_, fun k hk => hround.room hw ?_⟩
  · rcases h.sized with h0 | hlarge
    · obtain rfl := hzero h0
      rw [h0, zero_mul, hround.eq representable_zero]
    · have hleast : (2 : ℚ) ^ (-149 : ℤ) ≤ e * 2 ^ (-89 : ℤ) := by
        refine le_trans ?_ (mul_le_mul_of_nonneg_right hlarge (by positivity))
        norm_num
      calc w ≤ v * (1 + unit) + 2 ^ (-149 : ℤ) := hle
        _ ≤ e * (Share.value x / t * (1 + unit)) * (1 + unit) + e * 2 ^ (-89 : ℤ) := by gcongr
        _ = e * maxPart t x := by
          rw [maxPart]
          ring
  · refine h.extent.room.imp hzero fun hlarge => le_trans ?_ hlow
    rw [Share.two_pow_add_eq]
    exact mul_le_mul hlarge ((le_div_iff₀ ht).mpr (hparts k hk)) (Share.halfPart_pos k).le
      h.extent.nonneg

end Regular

/-! ## 4. All spans -/

/-- The room of a child: its share, where it starts along the extent, and how long it is. -/
structure Cut where
  share : Float32
  offset : Float32
  span : Float32

def cuts (d : Division) (offset : Float32) : List Float32 → List Cut
  | [] => []
  | x :: shares =>
      let span := if shares.isEmpty then d.extent - offset else d.span x
      ⟨x, offset, span⟩ :: d.cuts (offset + span) shares

def maxReach (total : ℚ) (rest : List Float32) : ℚ :=
  (rest.dropLast.map (maxPart total)).sum

/-- Whether an offset `o` and the spans of the shares to come, but the last one, leave at least the
part `a` of the extent whatever the errors are. Each of these spans is good for one more error of
the offset. -/
def LeavesRoom (a e total o : ℚ) (rest : List Float32) : Prop :=
  (o + e * maxReach total rest) * (1 + unit) ^ (rest.length - 1) ≤ e * (1 - a)

theorem sum_maxPart (total : ℚ) (shares : List Float32) :
    (shares.map (maxPart total)).sum =
      Share.exactTotal shares / total * (1 + unit) ^ 2 + shares.length * 2 ^ (-89 : ℤ) := by
  induction shares with
  | nil => simp [Share.exactTotal]
  | cons x shares ih =>
    rw [List.map_cons, List.sum_cons, ih, Share.exactTotal_cons, maxPart, List.length_cons]
    push_cast
    ring

theorem maxReach_cons (total : ℚ) (x y : Float32) (rest : List Float32) :
    maxReach total (x :: y :: rest) = maxPart total x + maxReach total (y :: rest) := by
  rw [maxReach, List.dropLast_cons_of_ne_nil (List.cons_ne_nil y rest), List.map_cons,
    List.sum_cons]
  rfl

theorem maxReach_nonneg {total : ℚ} (htotal : 0 < total) {rest : List Float32}
    (hrest : ∀ x ∈ rest, Share.Normal x) : 0 ≤ maxReach total rest := by
  have hu := unit_pos
  rw [maxReach, sum_maxPart]
  have hsum : 0 ≤ Share.exactTotal rest.dropLast :=
    Share.exactTotal_nonneg fun x hx => hrest x (List.dropLast_subset _ hx)
  positivity

/-- All shares but the last take what is theirs, with the errors of their spans and of the
offsets. -/
theorem parts_le (h : Share.Divisible shares) (hne : shares ≠ []) :
    Share.exactTotal shares.dropLast / Share.value (Share.total shares) * (1 + unit) ^ 2 *
      (1 + unit) ^ (shares.length - 1) ≤ 1 - 5 / 4 * Share.margin shares := by
  obtain ⟨htotal, hlow, -⟩ := h.total_bounds hne
  have ht := htotal.pos
  have hT := h.exactTotal_pos hne
  have hlen := List.length_pos_of_ne_nil hne
  have hhalf := h.margin_le_half hne
  have hroom := room_for_last hlen hhalf (h.length_mul_unit hne)
  have hleft : 0 ≤ 1 - 5 / 4 * Share.margin shares := by linarith
  rw [h.exactTotal_dropLast hne]
  generalize Share.value (Share.total shares) = t at *
  generalize Share.exactTotal shares = T at *
  generalize Share.margin shares = a at *
  calc T * (1 - 2 * a) / t * (1 + unit) ^ 2 * (1 + unit) ^ (shares.length - 1)
      = T * ((1 - 2 * a) * (1 + unit) ^ (shares.length + 1)) / t := by
        rw [show shares.length + 1 = 2 + (shares.length - 1) by omega, pow_add]
        ring
    _ ≤ T * ((1 - 5 / 4 * a) * (1 - unit) ^ shares.length) / t := by gcongr
    _ = T * (1 - unit) ^ shares.length * (1 - 5 / 4 * a) / t := by ring
    _ ≤ t * (1 - 5 / 4 * a) / t := by gcongr
    _ = 1 - 5 / 4 * a := mul_div_cancel_left₀ _ ht.ne'

/-- The least units count little. -/
theorem least_units_le (h : Share.Divisible shares) (hne : shares ≠ []) :
    ((shares.length - 1 : ℕ) : ℚ) * 2 ^ (-89 : ℤ) * (1 + unit) ^ (shares.length - 1) ≤
      Share.margin shares / 4 := by
  have hu := unit_pos
  have hcount : ((shares.length - 1 : ℕ) : ℚ) ≤ shares.length := by exact_mod_cast Nat.sub_le _ _
  have hgrowth : (1 + unit) ^ (shares.length - 1) ≤ 3 / 2 :=
    (pow_le_pow_right₀ (by linarith) (Nat.sub_le _ _)).trans
      (growth_le_of_le (h.length_mul_unit_le hne))
  calc ((shares.length - 1 : ℕ) : ℚ) * 2 ^ (-89 : ℤ) * (1 + unit) ^ (shares.length - 1)
      ≤ shares.length * 2 ^ (-89 : ℤ) * (3 / 2) := by gcongr
    _ = shares.length * (2 ^ (-89 : ℤ) * (3 / 2)) := mul_assoc ..
    _ ≤ shares.length * unit := mul_le_mul_of_nonneg_left (by norm_num [unit]) (by positivity)
    _ ≤ Share.margin shares / 4 := h.length_mul_unit hne

/-- All spans but the last one leave half of what the last share is due. -/
theorem maxReach_le (h : Share.Divisible shares) (hne : shares ≠ []) :
    maxReach (Share.value (Share.total shares)) shares * (1 + unit) ^ (shares.length - 1) ≤
      1 - Share.margin shares := by
  rw [maxReach, sum_maxPart, List.length_dropLast, add_mul]
  linarith [parts_le h hne, least_units_le h hne]

namespace LeavesRoom

variable {a total o : ℚ} {rest : List Float32}

/-- Before the first cut there is room for all of them. -/
theorem start (h : Share.Divisible shares) (hne : shares ≠ []) (he : 0 ≤ e) :
    LeavesRoom (Share.margin shares) e (Share.value (Share.total shares)) 0 shares := by
  rw [LeavesRoom, zero_add, mul_assoc]
  exact mul_le_mul_of_nonneg_left (maxReach_le h hne) he

/-- With room left, the cuts still to come end before the extent does. -/
theorem reach_le (h : LeavesRoom a e total o rest) (he : 0 ≤ e) (htotal : 0 < total) (ho : 0 ≤ o)
    (hrest : ∀ x ∈ rest, Share.Normal x) : o + e * maxReach total rest ≤ e * (1 - a) := by
  refine le_trans (le_mul_of_one_le_right ?_ ?_) h
  · exact add_nonneg ho (mul_nonneg he (maxReach_nonneg htotal hrest))
  · exact one_le_pow₀ (by linarith [unit_pos])

/-- The next offset leaves room as well. -/
theorem step {o' w : ℚ} {x y : Float32} (he : 0 ≤ e) (htotal : 0 < total)
    (hw : w ≤ e * maxPart total x) (ho' : o' ≤ (o + w) * (1 + unit))
    (hrest : ∀ z ∈ y :: rest, Share.Normal z) (h : LeavesRoom a e total o (x :: y :: rest)) :
    LeavesRoom a e total o' (y :: rest) := by
  have hR := mul_nonneg he (maxReach_nonneg htotal hrest)
  rw [LeavesRoom, maxReach_cons, List.length_cons, List.length_cons] at h
  rw [LeavesRoom, List.length_cons]
  have hu := unit_pos
  refine le_trans ?_ h
  calc (o' + e * maxReach total (y :: rest)) * (1 + unit) ^ (rest.length + 1 - 1)
      ≤ ((o + e * maxPart total x) * (1 + unit) + e * maxReach total (y :: rest) * (1 + unit)) *
          (1 + unit) ^ rest.length := by
        refine mul_le_mul_of_nonneg_right (add_le_add (ho'.trans ?_) ?_) (by positivity)
        · exact mul_le_mul_of_nonneg_right (by linarith) (by linarith)
        · exact le_mul_of_one_le_right hR (by linarith)
    _ = (o + e * (maxPart total x + maxReach total (y :: rest))) *
          (1 + unit) ^ (rest.length + 1 + 1 - 1) := by
        rw [Nat.add_sub_cancel, pow_succ]
        ring

/-- Neither does the offset come near the end of the extent nor does the next one. -/
theorem le (h : LeavesRoom a e total o rest) (he : 0 ≤ e) (htotal : 0 < total) (ho : 0 ≤ o)
    (hrest : ∀ x ∈ rest, Share.Normal x) : o ≤ e * (1 - a) := by
  linarith [h.reach_le he htotal ho hrest, mul_nonneg he (maxReach_nonneg htotal hrest)]

theorem next_le {w : ℚ} {x y : Float32} (h : LeavesRoom a e total o (x :: y :: rest)) (he : 0 ≤ e)
    (htotal : 0 < total) (ho : 0 ≤ o) (hw : w ≤ e * maxPart total x)
    (hrest : ∀ z ∈ x :: y :: rest, Share.Normal z) : o + w ≤ e * (1 - a) := by
  have hle := h.reach_le he htotal ho hrest
  rw [maxReach_cons, mul_add] at hle
  rw [List.forall_mem_cons] at hrest
  linarith [mul_nonneg he (maxReach_nonneg htotal hrest.2)]

end LeavesRoom

def Cut.Fits (e : ℚ) (q : ℕ) (cut : Cut) : Prop :=
  (∃ o, IsNumber cut.offset o ∧ 0 ≤ o ∧ o ≤ e) ∧ ∃ w, IsLength q cut.span w

/-- What is left for the last child. -/
theorem Regular.exists_last (h : d.Regular q shares e) (hne : shares ≠ []) {offset : Float32}
    {o : ℚ} (hoffset : IsNumber offset o) (ho : 0 ≤ o) (hle : o ≤ e * (1 - Share.margin shares))
    {k : ℕ} (hk : Share.exactTotal shares ≤ 2 ^ k * Share.value (shares.getLast hne)) :
    ∃ w, IsLength (q + (k + 1)) (d.extent - offset) w := by
  have he0 := h.extent.nonneg
  have hmargin := h.divisible.halfPart_le_margin hne hk
  have hdue : e * Share.halfPart k ≤ e - o := by
    linarith [mul_le_mul_of_nonneg_left hmargin he0]
  have hleft : 0 ≤ e - o := (mul_nonneg he0 (Share.halfPart_pos k).le).trans hdue
  have hroom : e - o = 0 ∨ 2 ^ (-(q + (k + 1) : ℕ) : ℤ) ≤ e - o := by
    refine h.extent.room.imp (fun h0 => by linarith) fun hlarge => le_trans ?_ hdue
    rw [Share.two_pow_add_eq]
    exact mul_le_mul_of_nonneg_right hlarge (Share.halfPart_pos k).le
  obtain ⟨w, hw, hround, -, hhigh⟩ := (h.extent.number.sub hoffset).within representable_zero
    (representable_abs_two_pow (k := 20) (by norm_num)) (by norm_num) (by norm_num) hleft
    (by linarith [h.extent.le])
  exact ⟨w, hw, hround.room hw hroom, by exact_mod_cast hhigh⟩

/-- Every child starts within the extent, and has room according to its share. The induction goes
from offset to offset: each leaves room for the spans to come. -/
theorem Regular.fits (h : d.Regular q shares e) {rest : List Float32} (hsuffix : rest <:+ shares)
    {offset : Float32} {o : ℚ} (hoffset : IsNumber offset o) (ho : 0 ≤ o)
    (hroom : LeavesRoom (Share.margin shares) e (Share.value (Share.total shares)) o rest) :
    ∀ cut ∈ d.cuts offset rest, ∀ k : ℕ,
      Share.exactTotal shares ≤ 2 ^ k * Share.value cut.share → cut.Fits e (q + (k + 1)) := by
  have he0 := h.extent.nonneg
  induction rest generalizing offset o with
  | nil => nofun
  | cons x rest ih =>
    have hx : x ∈ shares := hsuffix.mem List.mem_cons_self
    have hne : shares ≠ [] := List.ne_nil_of_mem hx
    have ht := (h.divisible.total_bounds hne).1.pos
    have hnormal : ∀ z ∈ x :: rest, Share.Normal z := fun z hz =>
      h.divisible.normal z (hsuffix.mem hz)
    have hle := hroom.le he0 ht ho hnormal
    have hend : e * (1 - Share.margin shares) ≤ e :=
      mul_le_of_le_one_right he0 (by linarith [h.divisible.margin_pos hne])
    cases rest with
    | nil =>
      rw [cuts, List.forall_mem_cons]
      refine ⟨fun k hk => ⟨⟨o, hoffset, ho, hle.trans hend⟩, ?_⟩, nofun⟩
      refine h.exists_last hne hoffset ho hle ?_
      obtain ⟨before, rfl⟩ := hsuffix
      rwa [List.getLast_append_singleton]
    | cons y rest =>
      obtain ⟨w, hw, hw0, hpart, hlarge⟩ := h.exists_span hx
      have hnext := (hroom.next_le he0 ht ho hpart hnormal).trans hend
      obtain ⟨o', hoffset', ho', hstep⟩ := hoffset.exists_sum hw ho hw0
        (hnext.trans (h.extent.le.trans (by norm_num)))
      rw [cuts, List.forall_mem_cons]
      refine ⟨fun k hk => ⟨⟨o, hoffset, ho, hle.trans hend⟩, w, hw, hlarge k hk, ?_⟩, ?_⟩
      · linarith [h.extent.le]
      · rw [List.forall_mem_cons] at hnormal
        exact ih ((List.suffix_cons x _).trans hsuffix) hoffset' ho'
          (hroom.step he0 ht hpart hstep hnormal.2)

end Division

end Tiling
