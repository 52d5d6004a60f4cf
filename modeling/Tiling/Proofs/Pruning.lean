import Tiling.Proofs.NormalForm
import Mathlib.Logic.Function.Iterate

/-!
# Balancing around a hole

Balancing keeps those frames around a hole that have leaves beside it and drops the others. The
orientation of the hole in the balanced tree is then a matter of counting: orientations alternate,
so each frame that is kept turns it once.
-/

namespace Tiling

variable {α : Type}

open Node

def Frame.forks (f : Frame α) : Bool :=
  (f.before ++ f.after).any bears

theorem Frame.forks_iff {f : Frame α} : f.forks ↔ 1 ≤ (f.before ++ f.after).countP bears := by
  rw [forks, List.any_eq_true]
  exact List.countP_pos_iff.symm

namespace Context

def orientations (c : Context α) : List Orientation :=
  c.map fun f => f.header.orientation

/-! ## 1. The frames that are kept -/

theorem exists_normalize_append (x y : Forest α) (n : Node α) :
    ∃ x' size y', Forest.normalize (x ++ n :: y) = x' ++ n.withSize size :: y' := by
  have hlength : (Share.normalize ((x ++ n :: y).map Node.size)).length = (x ++ n :: y).length := by
    simp
  rw [Forest.normalize]
  generalize Share.normalize ((x ++ n :: y).map Node.size) = sizes at hlength
  -- one size for each node, so there is one at the place of the hole
  obtain ⟨u, v, rfl, hu⟩ : ∃ u v, sizes = u ++ v ∧ u.length = x.length :=
    ⟨sizes.take x.length, sizes.drop x.length, (List.take_append_drop _ _).symm, by
      rw [List.length_take, hlength]
      simp⟩
  cases v with
  | nil => simp [hu] at hlength
  | cons size v =>
    rw [List.zipWith_append hu.symm, List.zipWith_cons_cons]
    exact ⟨_, size, _, rfl⟩

/-- A new size changes the outermost header alone. -/
theorem exists_plug_withSize (d : Context α) (h : Header) (cs : Forest α) (size : Float32) :
    ∃ d' size', (plug d (branch h cs)).withSize size =
        plug d' (branch { h with size := size' } cs) ∧ orientations d' = orientations d := by
  cases d with
  | nil => exact ⟨[], size, rfl, rfl⟩
  | cons f d => exact ⟨{ f with header := { f.header with size } } :: d, h.size, rfl, rfl⟩

/-- A container that keeps two children stays, with their sizes normalized. -/
theorem prune?_of_two {h : Header} {cs : Forest α} (hcs : 2 ≤ (cs.filterMap prune?).length) :
    (branch h cs).prune? = some (branch h (Forest.normalize (cs.filterMap prune?))) := by
  rw [prune?_branch]
  match cs.filterMap prune?, hcs with
  | _ :: _ :: _, _ => rfl

theorem inherit_plug (d : Context α) (h : Header) (cs : Forest α) (place : Header) :
    (plug d (branch h cs)).inherit place = (plug d (branch h cs)).withSize place.size := by
  cases d <;> rfl

/-- Around a node that bears a leaf, the container keeps two children exactly when another one bears
a leaf. -/
theorem two_le_kept_iff {f : Frame α} {n : Node α} (hn : n.bears) :
    2 ≤ ((f.before ++ n :: f.after).filterMap prune?).length ↔ f.forks := by
  rw [length_filterMap_prune? fun c _ => (prune?_census c).1, countP_bears_child hn,
    Nat.succ_le_succ_iff, Frame.forks_iff]

/-- Of the frames around a branch that balancing keeps, those with leaves beside the hole stay. -/
theorem exists_plug_prune? {c : Context α} {h : Header} {cs : Forest α}
    (hcs : 2 ≤ (cs.filterMap prune?).length) :
    ∃ d size, (plug c (branch h cs)).prune? = some (plug d
        (branch { h with size } (Forest.normalize (cs.filterMap prune?)))) ∧
      orientations d = orientations (c.filter Frame.forks) := by
  induction c with
  | nil => exact ⟨[], h.size, prune?_of_two hcs, rfl⟩
  | cons f c ih =>
    obtain ⟨d, size, hprune, hd⟩ := ih
    have hkept : (f.before ++ plug c (branch h cs) :: f.after).filterMap prune? =
        f.before.filterMap prune? ++ plug d (branch { h with size } (Forest.normalize
          (cs.filterMap prune?))) :: f.after.filterMap prune? := by
      rw [List.filterMap_append, List.filterMap_cons_some hprune]
    rw [plug_cons, Frame.fill]
    cases hforks : f.forks with
    | true =>
      have hbears : (plug c (branch h cs)).bears := by
        rw [← (prune?_census _).1, hprune]
        rfl
      have htwo := (two_le_kept_iff hbears).mpr hforks
      obtain ⟨x, s, y, hnormal⟩ := exists_normalize_append (f.before.filterMap prune?)
        (f.after.filterMap prune?)
        (plug d (branch { h with size } (Forest.normalize (cs.filterMap prune?))))
      obtain ⟨d', size', hsize, hd'⟩ :=
        exists_plug_withSize d { h with size } (Forest.normalize (cs.filterMap prune?)) s
      refine ⟨⟨f.header, x, y⟩ :: d', size', ?_, ?_⟩
      · rw [prune?_of_two htwo, hkept, hnormal, hsize]
        rfl
      · rw [List.filter_cons_of_pos hforks]
        exact congrArg (f.header.orientation :: ·) (hd'.trans hd)
    | false =>
      have hnone : ∀ l : Forest α, l.any bears = false → l.filterMap prune? = [] := fun l hl =>
        List.filterMap_eq_nil_iff.mpr fun k hk =>
          (prune?_eq_none k).mpr (Bool.eq_false_iff.mpr (List.any_eq_false.mp hl k hk))
      have hbeside := hforks
      rw [Frame.forks, List.any_append, Bool.or_eq_false_iff] at hbeside
      obtain ⟨d', size', hsize, hd'⟩ := exists_plug_withSize d { h with size }
        (Forest.normalize (cs.filterMap prune?)) f.header.size
      refine ⟨d', size', ?_, ?_⟩
      · rw [prune?_branch, hkept, hnone _ hbeside.1, hnone _ hbeside.2]
        exact congrArg some ((inherit_plug _ _ _ _).trans hsize)
      · rw [List.filter_cons_of_neg (by rw [hforks]; exact Bool.false_ne_true), hd', hd]

/-! ## 2. Turning -/

/-- A tree is turned as a whole: each frame turns the hole once. -/
theorem exists_plug_orient (c : Context α) (n : Node α) (o : Orientation) :
    ∃ d, (plug c n).orient o = plug d (n.orient (Orientation.reverse^[c.length] o)) := by
  induction c generalizing o with
  | nil => exact ⟨[], rfl⟩
  | cons f c ih =>
    obtain ⟨d, hd⟩ := ih o.reverse
    refine ⟨⟨{ f.header with orientation := o }, f.before.map (orient o.reverse),
      f.after.map (orient o.reverse)⟩ :: d, ?_⟩
    rw [plug_cons, Frame.fill, orient, Forest.orient_eq_map, List.map_append, List.map_cons, hd]
    rfl

end Context

namespace Node

open Context

theorem Alternating.of_mem_nodes {m n : Node α} (h : n.Alternating) (hm : m ∈ n.nodes) :
    m.Alternating :=
  fun k hk => h k (mem_nodes_trans hk hm)

/-- Where directions alternate, the depth of a node settles its own. -/
theorem Alternating.orientation_hole {c : Context α} {n : Node α} (h : (plug c n).Alternating) :
    n.orientation = Orientation.reverse^[c.length] (plug c n).orientation := by
  induction c with
  | nil => rfl
  | cons f c ih =>
    have hchild : plug c n ∈ (f.fill (plug c n)).children := by simp [Frame.fill]
    have hturned := h _ (self_mem_nodes _) _ hchild
    rw [ih (h.of_mem_nodes (mem_nodes_of_mem_children hchild)), hturned]
    rfl

end Node

/-! ## 3. The orientation of the hole -/

def Orientation.below : List Orientation → Orientation → Orientation
  -- Without branches it is the orientation of the node itself.
  | [], o => o
  | p :: run, _ => reverse^[run.length + 1] p

/-- Each branch of the run and what comes below them run across each other. -/
def Orientation.Alternate (run : List Orientation) (o : Orientation) : Prop :=
  ∀ u p v, run = u ++ p :: v → o = reverse^[v.length + 1] p

namespace Orientation

theorem Alternate.below_eq {run : List Orientation} {o : Orientation} (h : Alternate run o) :
    below run o = o := by
  cases run with
  | nil => rfl
  | cons p run => exact (h [] p run rfl).symm

/-- Without one of the branches, what comes below the run is turned. If it was the outermost that is
gone, the next one is not turned, and nothing below it is. -/
theorem Alternate.below_erase {u v : List Orientation} {p o : Orientation}
    (h : Alternate (u ++ p :: v) o) :
    below (u ++ v) o = if u = [] then o else o.reverse := by
  cases u with
  | nil =>
    have hrest : Alternate v o := fun u' q v' hv => h (p :: u') q v' (by rw [hv]; rfl)
    rw [if_pos rfl]
    exact hrest.below_eq
  | cons q u =>
    have ho := h [] q (u ++ p :: v) rfl
    have hlength : (u ++ p :: v).length = (u ++ v).length + 1 := by
      rw [List.length_append, List.length_cons, List.length_append, Nat.add_assoc]
    rw [hlength, Function.iterate_succ_apply'] at ho
    rw [if_neg (List.cons_ne_nil q u), ho, reverse_reverse]
    rfl

end Orientation

namespace Context

/-- The directions along a path alternate down to the node. -/
theorem alternate_orientations {c : Context α} {n : Node α} (h : (plug c n).Alternating) :
    Orientation.Alternate (orientations c) n.orientation := by
  intro u p v hrun
  obtain ⟨a, r, rfl, -, hr⟩ := List.map_eq_append_iff.mp hrun
  obtain ⟨f, b, rfl, rfl, rfl⟩ := List.map_eq_cons_iff.mp hr
  rw [plug_append] at h
  have hbelow := (h.of_mem_nodes (mem_nodes_plug a _)).orientation_hole
  rw [List.length_map]
  exact hbelow

/-- Where all frames are kept, the hole keeps its orientation. -/
theorem below_kept {c : Context α} {o : Orientation} (h : Orientation.Alternate (orientations c) o)
    (hall : ∀ f ∈ c, f.forks) : Orientation.below (orientations (c.filter Frame.forks)) o = o := by
  rw [List.filter_eq_self.mpr hall, h.below_eq]

/-- Where one frame goes, the hole is turned, unless that was the outermost. -/
theorem below_kept_lone {a b : Context α} {f : Frame α} {o : Orientation}
    (h : Orientation.Alternate (orientations (a ++ f :: b)) o) (hf : ¬f.forks)
    (ha : ∀ g ∈ a, g.forks) (hb : ∀ g ∈ b, g.forks) :
    Orientation.below (orientations ((a ++ f :: b).filter Frame.forks)) o =
      if a = [] then o else o.reverse := by
  rw [orientations, List.map_append, List.map_cons] at h
  have herase := h.below_erase
  rw [List.filter_append, List.filter_cons_of_neg hf, List.filter_eq_self.mpr ha,
    List.filter_eq_self.mpr hb, orientations, List.map_append, herase]
  simp only [List.map_eq_nil_iff]

/-- Balancing turns the branch in the hole by the frames that are kept. -/
theorem exists_plug_balance? {c : Context α} {h : Header} {cs : Forest α}
    (hcs : 2 ≤ (cs.filterMap prune?).length) :
    ∃ d size, (plug c (branch h cs)).balance? = some (plug d
      ((branch { h with size } (Forest.normalize (cs.filterMap prune?))).orient
        (.below (orientations (c.filter Frame.forks)) h.orientation))) := by
  obtain ⟨d, size, hprune, hd⟩ := exists_plug_prune? (c := c) (h := h) hcs
  obtain ⟨e, he⟩ := exists_plug_orient d
    (branch { h with size } (Forest.normalize (cs.filterMap prune?)))
    (plug d (branch { h with size } (Forest.normalize (cs.filterMap prune?)))).orientation
  refine ⟨e, size, ?_⟩
  rw [balance?, hprune, Option.map_some, he, ← hd]
  cases d with
  | nil => rfl
  | cons f d =>
    rw [orientations, List.map_cons, Orientation.below, List.length_map]
    rfl

end Context

end Tiling
