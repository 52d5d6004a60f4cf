import Tiling.Proofs.Reachable
import Tiling.Proofs.Spans

/-!
# Proper rectangles

A layout is made of rectangles whose components are finite and whose extents are not negative, as
long as the last visible share of no group is too small a part of it and the branches are not nested
so deep that one could be much smaller than any pixel.
-/

namespace Tiling

open Rounding

variable {α : Type}

/-! ## 1. Rectangles -/

namespace Rect

def Proper (r : Rect) : Prop :=
  r.x.isFinite ∧ r.y.isFinite ∧ (r.width.isFinite ∧ 0.0 ≤ r.width) ∧
    r.height.isFinite ∧ 0.0 ≤ r.height

instance (r : Rect) : Decidable r.Proper :=
  inferInstanceAs (Decidable (_ ∧ _))

/-- Whether the extents are lengths that are at least `2 ^ (-q)` if they are not zero, and the
origin is as far away as `q` steps from the largest origin may lead. -/
structure Located (q : ℕ) (r : Rect) : Prop where
  x : ∃ v, IsNumber r.x v ∧ |v| ≤ (q + 1 : ℕ) * 2 ^ 20
  y : ∃ v, IsNumber r.y v ∧ |v| ≤ (q + 1 : ℕ) * 2 ^ 20
  width : ∃ v, IsLength q r.width v
  height : ∃ v, IsLength q r.height v

end Rect

theorem IsLength.mono {q q' : ℕ} {x : Float32} {v : ℚ} (h : IsLength q x v) (hq : q ≤ q') :
    IsLength q' x v := by
  refine ⟨h.number, h.room.imp_right (le_trans ?_), h.le⟩
  exact zpow_le_zpow_right₀ one_le_two (by omega)

theorem IsLength.finite_nonneg {q : ℕ} {x : Float32} {v : ℚ} (h : IsLength q x v) :
    x.isFinite ∧ 0.0 ≤ x :=
  ⟨isFinite_iff.mpr ⟨v, h.number⟩, (isNumber_zero.le_iff (.inl h.number)).mpr h.nonneg⟩

/-- An origin that is moved by an offset within the extent. -/
theorem exists_moved {n : ℕ} {x y : Float32} {v w : ℚ} (hx : IsNumber x v) (hv : |v| ≤ n * 2 ^ 20)
    (hy : IsNumber y w) (hw0 : 0 ≤ w) (hw : w ≤ 2 ^ 20) (hn : n + 1 ≤ 2 ^ 24) :
    ∃ z, IsNumber (x + y) z ∧ |z| ≤ (n + 1 : ℕ) * 2 ^ 20 := by
  have hrep : Representable ((n + 1 : ℕ) * 2 ^ (20 : ℤ)) :=
    Share.representable_two_pow (by norm_num) hn
  rw [show (2 : ℚ) ^ (20 : ℤ) = 2 ^ 20 by norm_num] at hrep
  have hmax : ((n + 1 : ℕ) : ℚ) * 2 ^ 20 < 2 ^ 128 := by
    have hn' : ((n + 1 : ℕ) : ℚ) ≤ 2 ^ 24 := by exact_mod_cast hn
    exact (mul_le_mul_of_nonneg_right hn' (by positivity)).trans_lt (by norm_num)
  have hpos : (0 : ℚ) ≤ (n + 1 : ℕ) * 2 ^ 20 := by positivity
  have hnext : ((n + 1 : ℕ) : ℚ) * 2 ^ 20 = n * 2 ^ 20 + 2 ^ 20 := by
    push_cast
    ring
  obtain ⟨hlow, hhigh⟩ := abs_le.mp hv
  have hvw : -(((n + 1 : ℕ) : ℚ) * 2 ^ 20) ≤ v + w := by linarith
  have hwv : v + w ≤ (n + 1 : ℕ) * 2 ^ 20 := by linarith
  obtain ⟨z, hz, -, hzlow, hzhigh⟩ := (hx.add hy).within (by rwa [abs_neg, abs_of_nonneg hpos])
    (by rwa [abs_of_nonneg hpos]) (neg_lt_neg hmax) hmax hvw hwv
  exact ⟨z, hz, abs_le.mpr ⟨hzlow, hzhigh⟩⟩

namespace Rect

namespace Located

variable {r : Rect} {q q' : ℕ}

theorem proper (h : r.Located q) : r.Proper := by
  obtain ⟨⟨x, hx, -⟩, ⟨y, hy, -⟩, ⟨w, hw⟩, ⟨v, hv⟩⟩ := h
  exact ⟨isFinite_iff.mpr ⟨x, hx⟩, isFinite_iff.mpr ⟨y, hy⟩, hw.finite_nonneg, hv.finite_nonneg⟩

theorem exists_extent (h : r.Located q) (o : Orientation) : ∃ v, IsLength q (r.extent o) v := by
  cases o with
  | row => exact h.width
  | column => exact h.height

/-- A strip that fits a located rectangle is located too, a few rounding errors further on. -/
theorem strip (h : r.Located q) {e : ℚ} {cut : Division.Cut} (hcut : cut.Fits e q')
    (he : e ≤ 2 ^ 20) (hq : q < q') (hfew : q + 2 ≤ 2 ^ 24) (o : Orientation) :
    (r.strip cut.offset cut.span o).Located q' := by
  obtain ⟨⟨offset, hoffset, ho, hoe⟩, hspan⟩ := hcut
  obtain ⟨⟨x, hx, hxq⟩, ⟨y, hy, hyq⟩, ⟨w, hw⟩, ⟨v, hv⟩⟩ := h
  have hfar : ((q + 1 + 1 : ℕ) : ℚ) * 2 ^ 20 ≤ (q' + 1 : ℕ) * 2 ^ 20 := by
    refine mul_le_mul_of_nonneg_right ?_ (by positivity)
    exact_mod_cast Nat.succ_le_succ hq
  have hstay : ∀ {c : ℚ}, |c| ≤ (q + 1 : ℕ) * 2 ^ 20 → |c| ≤ (q' + 1 : ℕ) * 2 ^ 20 := fun hc =>
    hc.trans (le_trans (by push_cast; linarith) hfar)
  have hmove : ∀ {c : Float32} {v : ℚ}, IsNumber c v → |v| ≤ (q + 1 : ℕ) * 2 ^ 20 →
      ∃ z, IsNumber (c + cut.offset) z ∧ |z| ≤ (q' + 1 : ℕ) * 2 ^ 20 := fun hc hcq => by
    obtain ⟨z, hz, hzq⟩ := exists_moved hc hcq hoffset ho (hoe.trans he) hfew
    exact ⟨z, hz, hzq.trans hfar⟩
  cases o with
  | row => exact ⟨hmove hx hxq, ⟨y, hy, hstay hyq⟩, hspan, v, hv.mono hq.le⟩
  | column => exact ⟨⟨x, hx, hstay hxq⟩, hmove hy hyq, ⟨w, hw.mono hq.le⟩, hspan⟩

end Located

end Rect

/-! ## 2. Layouts -/

theorem Division.cuts_visible {d : Division} {offset : Float32} {c : Node α} {cs : Forest α}
    (h : c.visible) :
    d.cuts offset ((Forest.visible (c :: cs)).map Node.size) =
      let span := if cs.any Node.visible then d.span c.size else d.extent - offset
      ⟨c.size, offset, span⟩ :: d.cuts (offset + span) ((Forest.visible cs).map Node.size) := by
  have hlast : ((Forest.visible cs).map Node.size).isEmpty = !cs.any Node.visible := by
    rw [Forest.visible, List.isEmpty_map, Bool.eq_iff_iff]
    simp [List.filter_eq_nil_iff]
  rw [Forest.visible, List.filter_cons_of_pos h, List.map_cons, Division.cuts, ← Forest.visible,
    hlast]
  cases cs.any Node.visible <;> rfl

/-- A pane's rectangle lies in the strip of the child that it is below. -/
theorem Forest.exists_cut {d : Division} {offset : Float32} {cs : Forest α} {e : NodeId × Rect}
    (h : e ∈ Forest.arrange d offset cs) :
    ∃ c ∈ cs, c.visible ∧ ∃ cut ∈ d.cuts offset ((Forest.visible cs).map Node.size),
      cut.share = c.size ∧ e ∈ c.arrange (d.bounds.strip cut.offset cut.span d.orientation) := by
  induction cs generalizing offset with
  | nil => cases h
  | cons c cs ih =>
    rw [Forest.arrange] at h
    by_cases hvisible : c.visible
    · rw [if_pos hvisible] at h
      rw [Division.cuts_visible hvisible]
      rcases List.mem_append.mp h with h | h
      · exact ⟨c, List.mem_cons_self, hvisible, _, List.mem_cons_self, rfl, h⟩
      · obtain ⟨k, hk, hkvisible, cut, hcut, hshare, hmem⟩ := ih h
        exact ⟨k, List.mem_cons_of_mem c hk, hkvisible, cut, List.mem_cons_of_mem _ hcut,
          hshare, hmem⟩
    · rw [if_neg hvisible] at h
      obtain ⟨k, hk, hkvisible, cut, hcut, hshare, hmem⟩ := ih h
      refine ⟨k, List.mem_cons_of_mem c hk, hkvisible, cut, ?_, hshare, hmem⟩
      rwa [Forest.visible, List.filter_cons_of_neg hvisible]

/-- Whether a node can be laid out in extents that are at least `2 ^ (-q)` if they are not zero.
Each branch that is shown has shares that can divide its extent, and the extents of a child whose
share is one part in `2 ^ k` may be shorter by that part, and by the errors. -/
inductive Node.Divides : ℕ → Node α → Prop
  | leaf (q : ℕ) (h : Header) (d : α) : Divides q (.leaf h d)
  | branch {q : ℕ} (h : Header) {cs : Forest α} (k : Node α → ℕ) (room : q ≤ 60)
      (divisible : Share.Divisible ((Forest.visible cs).map Node.size))
      (parts : ∀ c ∈ cs, c.visible →
        Share.exactTotal ((Forest.visible cs).map Node.size) ≤ 2 ^ k c * Share.value c.size)
      (children : ∀ c ∈ cs, c.visible → Divides (q + (k c + 1)) c) : Divides q (.branch h cs)

/-- Divisible shares cut an extent into a regular division. -/
theorem Share.Divisible.regular {q : ℕ} {shares : List Float32} (h : Divisible shares)
    {bounds : Rect} {o : Orientation} {e : ℚ} (he : IsLength q (bounds.extent o) e) (hq : q ≤ 60) :
    (Division.of bounds o shares).Regular q shares e := by
  have hweight : shares.map weight = shares := by
    refine (List.map_congr_left fun x hx => if_pos ?_).trans (List.map_id' shares)
    have hvalue := (h.value_bounds hx).1
    exact (isNumber_zero.lt_iff (.inl hvalue.isNumber)).mpr hvalue.pos
  exact ⟨congrArg Share.total hweight, h, he, hq⟩

/-- In such extents all rectangles are proper, by induction on the nested branches: each strip is an
extent for the child in it. -/
theorem Node.Divides.proper {q : ℕ} {n : Node α} (h : n.Divides q) {bounds : Rect}
    (hbounds : bounds.Located q) : ∀ e ∈ n.arrange bounds, e.2.Proper := by
  induction h generalizing bounds with
  | leaf q h d =>
    rw [Node.arrange]
    exact List.forall_mem_singleton.mpr hbounds.proper
  | @branch q h cs k hq hdivisible hparts _ ih =>
    intro e he
    rw [Node.arrange] at he
    obtain ⟨c, hc, hvisible, cut, hcut, hshare, hmem⟩ := Forest.exists_cut he
    obtain ⟨v, hv⟩ := hbounds.exists_extent h.orientation
    have hne : (Forest.visible cs).map Node.size ≠ [] := by
      intro hnil
      rw [hnil] at hcut
      cases hcut
    have hfits := (hdivisible.regular hv hq).fits List.suffix_rfl isNumber_zero le_rfl
      (.start hdivisible hne hv.nonneg) cut hcut (k c) (hshare ▸ hparts c hc hvisible)
    have hstrip := hbounds.strip hfits hv.le (by omega) (by omega) h.orientation
    exact ih c hc hvisible hstrip e hmem

/-! ## 3. States -/

namespace Rect

/-- Whether the origin is at most `2 ^ 20` in either direction and the extents are between zero and
that. -/
structure Usual (r : Rect) : Prop where
  x : -1048576.0 ≤ r.x ∧ r.x ≤ 1048576.0
  y : -1048576.0 ≤ r.y ∧ r.y ≤ 1048576.0
  extent : ∀ o, 0.0 ≤ r.extent o ∧ r.extent o ≤ 1048576.0

def AtLeast (q : ℕ) (r : Rect) : Prop :=
  ∀ o, r.extent o == 0.0 ∨ 2 ^ (-q : ℤ) ≤ Share.value (r.extent o)

theorem isNumber_bound : IsNumber 1048576.0 (2 ^ 20) ∧ IsNumber (-1048576.0) (-2 ^ 20) := by
  have hcanonical : Canonical 8388608 (-3) := ⟨by norm_num, by norm_num, .inl (by norm_num)⟩
  have hvalue : ((8388608 : ℕ) * 2 ^ (-3 : ℤ) : ℚ) = 2 ^ 20 := by norm_num
  have hhigh : IsNumber 1048576.0 (signum .positive * ((8388608 : ℕ) * 2 ^ (-3 : ℤ))) :=
    isNumber_of_eq (by decide +kernel) hcanonical (by norm_num)
  have hlow : IsNumber (-1048576.0) (signum .negative * ((8388608 : ℕ) * 2 ^ (-3 : ℤ))) :=
    isNumber_of_eq (by decide +kernel) hcanonical (by norm_num)
  rw [hvalue] at hhigh hlow
  exact ⟨by simpa [signum] using hhigh, by simpa [signum] using hlow⟩

/-- Usual bounds are located, with no error yet. -/
theorem Usual.located {r : Rect} (h : r.Usual) {q : ℕ} (hq : r.AtLeast q) : r.Located q := by
  obtain ⟨hhigh, hlow⟩ := isNumber_bound
  have horigin : ∀ {c : Float32}, -1048576.0 ≤ c ∧ c ≤ 1048576.0 →
      ∃ v, IsNumber c v ∧ |v| ≤ (q + 1 : ℕ) * 2 ^ 20 := fun hc => by
    obtain ⟨v, hv, hlowv, hvhigh⟩ := exists_number_between hlow hhigh hc.1 hc.2
    refine ⟨v, hv, (abs_le.mpr ⟨hlowv, hvhigh⟩).trans (le_mul_of_one_le_left (by positivity) ?_)⟩
    exact_mod_cast Nat.le_add_left 1 q
  have hextent : ∀ o, ∃ v, IsLength q (r.extent o) v := fun o => by
    obtain ⟨v, hv, -, hvhigh⟩ := exists_number_between isNumber_zero hhigh (h.extent o).1
      (h.extent o).2
    refine ⟨v, hv, (hq o).imp (hv.beq_iff (.inl isNumber_zero)).mp fun hle => ?_, hvhigh⟩
    have hvalue := Share.hasValue_of_value_pos (lt_of_lt_of_le (by positivity) hle)
    rwa [hv.unique hvalue.isNumber]
  exact ⟨horigin h.x, horigin h.y, hextent .row, hextent .column⟩

end Rect

namespace State

def displayed (s : State α) : Option (Node α) :=
  s.root.map fun root => (s.magnified.bind root.find?).getD root

theorem layout_eq (s : State α) (bounds : Rect) :
    s.layout bounds = s.displayed.elim [] (·.layout bounds) := by
  rw [layout, displayed]
  cases s.root <;> rfl

end State

/-- The rectangles of a layout are proper if the node that it shows can be laid out in extents as
short as those of the bounds: the last share of each group is more than the errors, and the branches
are not nested too deep. -/
theorem rectangles_are_proper (s : State α) (bounds : Rect) (q : ℕ) (hbounds : bounds.Usual)
    (hextents : bounds.AtLeast q) (hshown : ∀ n ∈ s.displayed, n.Divides q) :
    ∀ e ∈ s.layout bounds, e.2.Proper := by
  rw [State.layout_eq]
  cases hn : s.displayed with
  | none => exact List.forall_mem_nil _
  | some n =>
    rw [Option.elim_some, Node.layout]
    split
    · exact (hshown n hn).proper (hbounds.located hextents)
    · exact List.forall_mem_nil _

theorem nested_rectangles_are_proper :
    let column : Node Unit := .branch { id := ⟨3⟩, orientation := .column, size := 70 }
      [.leaf { id := ⟨4⟩, size := 1e-9 } (), .leaf { id := ⟨5⟩, visible := false } (),
        .leaf { id := ⟨6⟩, size := 50 } ()]
    let s : State Unit :=
      { root := some (.branch { id := ⟨1⟩ } [.leaf { id := ⟨2⟩, size := 30 } (), column]) }
    let bounds : Rect := ⟨-40, 0, 200, 100⟩
    bounds.Usual ∧ bounds.AtLeast 0 ∧ (∀ n ∈ s.displayed, n.Divides 0) ∧
      ∀ e ∈ s.layout bounds, e.2.Proper := by
  intro column s bounds
  have hbounds : bounds.Usual :=
    ⟨by decide +kernel, by decide +kernel, by rintro (_ | _) <;> decide +kernel⟩
  have hextents : bounds.AtLeast 0 := by rintro (_ | _) <;> decide +kernel
  have hcolumn : column.Divides (0 + (2 + 1)) := by
    refine .branch _ (fun _ => 36) (by decide) ⟨by decide +kernel, by decide +kernel⟩
      (by decide +kernel) ?_
    simp only [List.forall_mem_cons]
    exact ⟨fun _ => .leaf .., fun _ => .leaf .., fun _ => .leaf .., nofun⟩
  have hshown : ∀ n ∈ s.displayed, n.Divides 0 := by
    rintro n ⟨⟩
    refine .branch _ (fun _ => 2) (by decide) ⟨by decide +kernel, by decide +kernel⟩
      (by decide +kernel) ?_
    simp only [List.forall_mem_cons]
    exact ⟨fun _ => .leaf .., fun _ => hcolumn, nofun⟩
  exact ⟨hbounds, hextents, hshown, rectangles_are_proper s bounds 0 hbounds hextents hshown⟩

/-- Shares close to the largest number pass the check, and their total is infinite. -/
theorem huge_shares_have_no_rectangles :
    let root : Node Unit := .branch { id := ⟨1⟩ } [.leaf { id := ⟨2⟩ } (), .leaf { id := ⟨3⟩ } ()]
    let huge : Action Unit := .resize [⟨⟨2⟩, 3e38⟩, ⟨⟨3⟩, 3e38⟩]
    let s := (State.ofRoot root).call (.perform huge)
    Reachable s ∧ ((State.ofRoot root).step huge).2 = none ∧ Rect.Usual ⟨0, 0, 200, 100⟩ ∧
      ¬∀ e ∈ s.layout ⟨0, 0, 200, 100⟩, e.2.Proper := by
  intro root huge s
  refine ⟨.call _ (.ofRoot root), by decide +kernel,
    ⟨by decide +kernel, by decide +kernel, ?_⟩, by decide +kernel⟩
  rintro (_ | _) <;> decide +kernel

end Tiling
