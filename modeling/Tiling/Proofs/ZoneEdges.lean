import Tiling.Config
import Tiling.Proofs.SignedNumbers

/-!
# Where the zones end

A rectangle contains a point up to its far edges, which are sums of an origin and an extent. The
zones measure the point from the origin and compare with the extent. Both agree on the near edges. A
far edge that is not a number of the format is rounded, and where it comes out too near, a point on
it is outside the rectangle and still hits a zone.
-/

namespace Tiling

open Float.Model (Format UnpackedFloat)
open Float.Model.UnpackedFloat
open Rounding

/-! ## 1. What is not a number -/

namespace Rounding

variable {x y : Float32} {v w : ℚ}

/-- What is packed is not a number if nothing else is. -/
theorem isNaN_of_eq {u : UnpackedFloat} (h : u = .notANumber) :
    (Float32.ofModel (.pack u)).isNaN = true := by
  subst h
  rfl

theorem unpack_of_eq {u : UnpackedFloat} {s : Sign} (h : u = .infinity s) :
    (Float32.ofModel (.pack u)).toModel.unpack = .infinity s := by
  subst h
  exact unpack_packedInfinity s

theorem isNaN_add (h : y.isNaN) : (x + y).isNaN := by
  refine isNaN_of_eq ?_
  rw [notANumber_iff.mp h]
  cases x.toModel.unpack <;> rfl

theorem not_lt_of_positive (h : x.toModel.unpack = .infinity .positive) : ¬x < y := by
  rw [Share.lt_iff, h]
  cases y.toModel.unpack with
  | infinity s => cases s <;> nofun
  | _ => nofun

theorem not_lt_of_negative (h : y.toModel.unpack = .infinity .negative) : ¬x < y := by
  rw [Share.lt_iff, h]
  cases x.toModel.unpack with
  | infinity s => cases s <;> nofun
  | finite s m e hm => cases s <;> nofun
  | _ => nofun

theorem le_of_positive (hx : ¬x.isNaN) (hy : y.toModel.unpack = .infinity .positive) : x ≤ y := by
  rw [notANumber_iff] at hx
  rw [Share.le_iff, hy]
  cases hu : x.toModel.unpack with
  | notANumber => exact absurd hu hx
  | infinity s => cases s <;> rfl
  | finite s m e hm => cases s <;> rfl
  | zero s => rfl

/-- Nothing leads away from the infinity below all numbers. -/
theorem add_of_negative (h : x.toModel.unpack = .infinity .negative) :
    (x + y).isNaN ∨ (x + y).toModel.unpack = .infinity .negative := by
  rcases kinds y with hy | ⟨_ | _, hy⟩ | ⟨v, hy⟩
  · exact .inl (isNaN_add hy)
  · exact .inr (unpack_of_eq (by rw [h, hy]; rfl))
  · exact .inl (isNaN_of_eq (by rw [h, hy]; rfl))
  · refine .inr (unpack_of_eq ?_)
    rcases hy.cases with ⟨t, hu, -⟩ | ⟨t, m, e, hm, hu, -⟩ <;> rw [h, hu] <;> rfl

/-- Two numbers have a difference. Otherwise something else comes out, which is infinite unless one
of the two is not a number or both are the same infinity. -/
theorem sub_cases (x y : Float32) :
    (∃ v w, IsNumber x v ∧ IsNumber y w) ∨ (∃ s, (x - y).toModel.unpack = .infinity s) ∨
      (x - y).isNaN ∧ (x.isNaN ∨ y.isNaN ∨
        ∃ s, x.toModel.unpack = .infinity s ∧ y.toModel.unpack = .infinity s) := by
  rcases kinds x with hx | ⟨s, hx⟩ | ⟨v, hx⟩
  · refine .inr (.inr ⟨isNaN_of_eq ?_, .inl hx⟩)
    rw [notANumber_iff.mp hx, UnpackedFloat.sub]
  · rcases kinds y with hy | ⟨t, hy⟩ | ⟨w, hy⟩
    · refine .inr (.inr ⟨isNaN_of_eq ?_, .inr (.inl hy)⟩)
      rw [hx, notANumber_iff.mp hy]
      rfl
    · by_cases hst : s = t
      · subst hst
        refine .inr (.inr ⟨isNaN_of_eq ?_, .inr (.inr ⟨s, hx, hy⟩)⟩)
        rw [hx, hy]
        cases s <;> rfl
      · refine .inr (.inl ⟨s, unpack_of_eq ?_⟩)
        rw [hx, hy]
        cases s <;> cases t <;> first | rfl | exact absurd rfl hst
    · refine .inr (.inl ⟨s, unpack_of_eq ?_⟩)
      rcases hy.cases with ⟨t, hu, -⟩ | ⟨t, m, e, hm, hu, -⟩ <;> rw [hx, hu] <;> rfl
  · rcases kinds y with hy | ⟨t, hy⟩ | ⟨w, hy⟩
    · refine .inr (.inr ⟨isNaN_of_eq ?_, .inr (.inl hy)⟩)
      rw [notANumber_iff.mp hy]
      cases x.toModel.unpack <;> rfl
    · refine .inr (.inl ⟨-t, unpack_of_eq ?_⟩)
      rcases hx.cases with ⟨s, hu, -⟩ | ⟨s, m, e, hm, hu, -⟩ <;> rw [hy, hu] <;> rfl
    · exact .inl ⟨v, w, hx, hy⟩

end Rounding

/-! ## 2. One axis -/

namespace Rect

variable {o s c : Float32}

/-- Whether `c` lies between the edges of the extent `s` from the origin `o` on. -/
def covers (o s c : Float32) : Bool :=
  o ≤ c && c < o + s

/-- Whether `c` is not too near and not too far from the origin to hit a zone. -/
structure Hit (o s c : Float32) : Prop where
  extent : ¬s ≤ 0.0
  near : ¬c - o < 0.0
  far : ¬s ≤ c - o

def OnShortEdge (o s c : Float32) : Prop :=
  c == o + s ∧ o + s - o < s

/-- A rectangle contains a point when it covers it along both axes. -/
theorem contains_eq (r : Rect) (p : Point) :
    r.contains p = (covers r.x r.width p.x && covers r.y r.height p.y) := by
  rw [contains, covers, covers, Bool.and_assoc (_ && _)]

theorem covers_of_isNaN (h : s.isNaN ∨ (c - o).isNaN) : covers o s c = false := by
  rw [covers, Bool.and_eq_false_iff, decide_eq_false_iff_not, decide_eq_false_iff_not]
  rcases h with hs | hd
  · exact .inr (not_lt_of_isNaN (isNaN_add hs))
  rcases sub_cases c o with ⟨v, w, hv, hw⟩ | ⟨t, hd'⟩ | ⟨-, hc | ho | ⟨t, hc, ho⟩⟩
  · obtain ⟨d, hd', -⟩ := hv.sub hw
    exact absurd hd hd'.not_isNaN
  · rw [notANumber_iff, hd'] at hd
    cases hd
  · exact .inl (not_le_of_isNaN (.inr hc))
  · exact .inl (not_le_of_isNaN (.inl ho))
  · refine .inr ?_
    cases t with
    | positive => exact not_lt_of_positive hc
    | negative => exact (add_of_negative ho).elim not_lt_of_isNaN not_lt_of_negative

/-- Coordinates that are the same number are at the same distance, even if they are the two
zeros. -/
theorem isNumber_sub_congr {x y : Float32} {a v w : ℚ} (hx : IsNumber x a) (hy : IsNumber y a)
    (ho : IsNumber o w) (h : IsNumber (x - o) v) : IsNumber (y - o) v := by
  rcases hx.eq_or_eq_zero hy with rfl | rfl
  · exact h
  have hrep : Representable |0 - w| := by
    rw [zero_sub, abs_neg]
    exact ho.representable
  obtain ⟨b, hb, hround⟩ := hx.sub ho
  obtain ⟨b', hb', hround'⟩ := hy.sub ho
  rw [hround.eq hrep] at hb
  rw [hround'.eq hrep] at hb'
  have hmax : |0 - w| < 2 ^ 128 := by
    rw [zero_sub, abs_neg]
    exact ho.below_overflow
  rw [h.unique (hb.isNumber hmax)]
  exact hb'.isNumber hmax

/-- A distance that rounds to no negative number is not negative: it is a whole number of the least
unit, so it does not round up to zero. -/
theorem le_of_sub_nonneg {x y : Float32} {v w d : ℚ} (hx : IsNumber x v) (hy : IsNumber y w)
    (hround : SignedRoundsTo (v - w) d) (hd : 0 ≤ d) : w ≤ v := by
  by_contra hlt
  obtain ⟨m, rfl⟩ := hx.exists_units
  obtain ⟨n, rfl⟩ := hy.exists_units
  have hunit : (0 : ℚ) < 2 ^ (-149 : ℤ) := by positivity
  have hmn : (m : ℚ) + 1 ≤ n := by
    have hlt' : (m : ℚ) < n := lt_of_mul_lt_mul_right (not_le.mp hlt) hunit.le
    exact_mod_cast Int.add_one_le_iff.mpr (by exact_mod_cast hlt')
  have hbelow : (m * 2 ^ (-149 : ℤ) - n * 2 ^ (-149 : ℤ) : ℚ) ≤ -2 ^ (-149 : ℤ) := by
    have hscaled := mul_le_mul_of_nonneg_right hmn hunit.le
    linarith
  have hrep : Representable |(-2 ^ (-149 : ℤ) : ℚ)| := by
    rw [abs_neg, abs_of_pos hunit]
    exact ⟨1, -149, by norm_num, le_rfl, by norm_num⟩
  linarith [(hround _ hrep).1 hbelow]

namespace Hit

/-- A coordinate that is not too far is a number, and so are the origin and their distance. -/
theorem exists_numbers (h : Hit o s c) (hs : ¬s.isNaN) (hd : ¬(c - o).isNaN) :
    ∃ a b d, IsNumber c a ∧ IsNumber o b ∧ IsNumber (c - o) d ∧ SignedRoundsTo (a - b) d ∧
      0 ≤ d := by
  have hfinite : ∀ t, (c - o).toModel.unpack ≠ .infinity t := by
    rintro (_ | _) hu
    · refine h.near ?_
      rw [Share.lt_iff, hu, Share.unpack_zero]
      rfl
    · exact h.far (le_of_positive hs hu)
  rcases sub_cases c o with ⟨a, b, ha, hb⟩ | ⟨t, hu⟩ | ⟨hd', -⟩
  · obtain ⟨d, hd', hround⟩ := ha.sub hb
    have hnumber : IsNumber (c - o) d := hd'.resolve_right fun ⟨t, hu, _⟩ => hfinite t hu
    refine ⟨a, b, d, ha, hb, hnumber, hround, ?_⟩
    rw [← not_lt, ← hnumber.lt_iff (.inl isNumber_zero)]
    exact h.near
  · exact absurd hu (hfinite t)
  · exact absurd hd' hd

/-- The extent is longer than the distance. -/
theorem exists_extent (h : Hit o s c) (hs : ¬s.isNaN) {d : ℚ} (hd : IsNumber (c - o) d) :
    s.toModel.unpack = .infinity .positive ∨ ∃ e, IsNumber s e ∧ d < e := by
  rcases kinds s with hs' | ⟨_ | _, hs'⟩ | ⟨e, he⟩
  · exact absurd hs' hs
  · refine absurd ?_ h.extent
    rw [Share.le_iff, hs', Share.unpack_zero]
    rfl
  · exact .inl hs'
  · refine .inr ⟨e, he, ?_⟩
    rw [← not_le, ← he.le_iff (.inl hd)]
    exact h.far

/-- The far edge, be it rounded or infinite, is not before the coordinate. -/
theorem exists_edge (h : Hit o s c) (hs : ¬s.isNaN) {a b d : ℚ} (hc : IsNumber c a)
    (ho : IsNumber o b) (hd : IsNumber (c - o) d) (hround : SignedRoundsTo (a - b) d) :
    ∃ f, StandsFor (o + s) f ∧ a ≤ f := by
  rcases h.exists_extent hs hd with hs' | ⟨e, he, hde⟩
  · have hedge : (o + s).toModel.unpack = .infinity .positive := by
      refine unpack_of_eq ?_
      rcases ho.cases with ⟨t, hu, -⟩ | ⟨t, m, e, hm, hu, -⟩ <;> rw [hs', hu] <;> rfl
    refine ⟨2 ^ 128, .inr ⟨_, hedge, (one_mul _).ge⟩, ?_⟩
    exact (le_abs_self a).trans hc.below_overflow.le
  · obtain ⟨f, hf, hsum⟩ := ho.add he
    refine ⟨f, hf, (hsum a hc.representable).2 ?_⟩
    -- a distance of at least the extent would not have been rounded below it
    have hlt : a - b < e := not_le.mp fun hle =>
      (hround e he.representable).2 hle |>.not_gt hde
    linarith

/-- Where everything is a number, the coordinate is between the edges unless it is on a far edge
that is too near. -/
theorem covers_eq_false_iff (h : Hit o s c) (hs : ¬s.isNaN) (hd : ¬(c - o).isNaN) :
    covers o s c = false ↔ OnShortEdge o s c := by
  obtain ⟨a, b, d, hc, ho, hdist, hround, hd0⟩ := h.exists_numbers hs hd
  obtain ⟨f, hf, hle⟩ := h.exists_edge hs hc ho hdist hround
  have hnear : b ≤ a := le_of_sub_nonneg hc ho hround hd0
  have hcovers : covers o s c = true ↔ a < f := by
    rw [covers, Bool.and_eq_true, decide_eq_true_iff, decide_eq_true_iff, ho.le_iff (.inl hc),
      hc.lt_iff hf, and_iff_right hnear]
  rw [← Bool.not_eq_true, hcovers, not_lt, OnShortEdge, hc.beq_iff hf]
  constructor
  · intro hfa
    obtain rfl := le_antisymm hle hfa
    have hedge := hf.isNumber hc.below_overflow
    have hback := isNumber_sub_congr hc hedge ho hdist
    refine ⟨rfl, ?_⟩
    rcases h.exists_extent hs hdist with hs' | ⟨e, he, hde⟩
    · refine (hback.lt_iff (.inr ⟨_, hs', (one_mul _).ge⟩)).mpr ?_
      exact (le_abs_self d).trans_lt hdist.below_overflow
    · exact (hback.lt_iff (.inl he)).mpr hde
  · rintro ⟨rfl, -⟩
    exact le_rfl

end Hit

/-- A point that is hit along an axis is covered, unless something is no number or the rounded edge
falls short. -/
theorem Hit.covers_iff (h : Hit o s c) :
    covers o s c = false ↔ s.isNaN ∨ (c - o).isNaN ∨ OnShortEdge o s c := by
  by_cases hnan : s.isNaN ∨ (c - o).isNaN
  · exact iff_of_true (covers_of_isNaN hnan) (hnan.imp_right .inl)
  · obtain ⟨hs, hd⟩ := not_or.mp hnan
    rw [h.covers_eq_false_iff hs hd, or_iff_right hs, or_iff_right hd]

end Rect

/-! ## 3. Zones and rectangles -/

/-- A point in a zone is hit along both axes. -/
theorem DropZone.hit_of_at? {r : Rect} {p : Point} {fractions : ZoneFractions}
    (h : (at? r p fractions).isSome) :
    Rect.Hit r.x r.width p.x ∧ Rect.Hit r.y r.height p.y := by
  rw [at?] at h
  split at h
  · cases h
  next hextent =>
  dsimp only at h
  split at h
  · cases h
  next hplace =>
  simp only [Bool.or_eq_true, decide_eq_true_eq, not_or] at hextent hplace
  obtain ⟨⟨⟨hleft, habove⟩, hright⟩, hbelow⟩ := hplace
  exact ⟨⟨hextent.1, hleft, hright⟩, ⟨hextent.2, habove, hbelow⟩⟩

/-- A point that hits a zone lies in the rectangle, unless an extent or the place of the point along
it is not a number, or the point lies on a far edge that has been rounded towards the origin. -/
theorem contains_of_zone (r : Rect) (p : Point) (fractions : ZoneFractions)
    (h : (DropZone.at? r p fractions).isSome) :
    r.contains p = false ↔
      (r.width.isNaN ∨ (p.x - r.x).isNaN ∨ r.height.isNaN ∨ (p.y - r.y).isNaN) ∨
      (p.x == r.x + r.width ∧ r.x + r.width - r.x < r.width) ∨
      (p.y == r.y + r.height ∧ r.y + r.height - r.y < r.height) := by
  obtain ⟨hx, hy⟩ := DropZone.hit_of_at? h
  rw [Rect.contains_eq, Bool.and_eq_false_iff, hx.covers_iff, hy.covers_iff, Rect.OnShortEdge,
    Rect.OnShortEdge]
  tauto

theorem left_band_is_in_rectangle :
    (DropZone.at? ⟨0, 0, 200, 100⟩ ⟨10, 50⟩ {}).isSome ∧
      Rect.contains ⟨0, 0, 200, 100⟩ ⟨10, 50⟩ = true := by
  have hzone : (DropZone.at? ⟨0, 0, 200, 100⟩ ⟨10, 50⟩ {}).isSome := by decide +kernel
  refine ⟨hzone, eq_true_of_ne_false fun hno => ?_⟩
  exact absurd ((contains_of_zone _ _ _ hzone).mp hno) (by decide +kernel)

/-- From `2 ^ 24` on the numbers of the format are two units apart, so a rectangle of width one has
no point at all, and its left edge hits a zone all the same. -/
theorem zone_of_rectangle_without_points :
    ¬∀ (r : Rect) (p : Point) (config : Config), config.invalid? = none →
      (DropZone.at? r p config.zones).isSome → r.contains p = true := by
  intro h
  have hcontains := h ⟨16777216, 0, 1, 100⟩ ⟨16777216, 50⟩ {} (by decide +kernel) (by decide +kernel)
  exact absurd hcontains (by decide +kernel)

end Tiling
