import Tiling.Proofs.Balanced
import Tiling.Proofs.Distinct
import Tiling.Proofs.Paths

/-!
# Exchanging two nodes twice

To set the nodes at two paths that part is to set them in either order. Each of two nodes that are
exchanged takes the size and the orientation of the other's place, so that a second exchange gives
both back their own.
-/

namespace Tiling

variable {α : Type}

/-! ## 1. Setting nodes at paths -/

theorem Forest.modify_eq_set {cs : Forest α} {i : Nat} {c : Node α} (hc : cs[i]? = some c)
    (f : Node α → Node α) : cs.modify i f = cs.set i (f c) := by
  rw [List.modify_eq_set_getElem?, hc]
  rfl

namespace Node

theorem setAt_at? {p : Path} {n m : Node α} (h : n.at? p = some m) : setAt m p n = n := by
  obtain ⟨c, hn, hset⟩ := exists_plug_of_at? h
  rw [hset, hn]

theorem at?_setAt_self {p : Path} {n m : Node α} (h : n.at? p = some m) (new : Node α) :
    (setAt new p n).at? p = some new := by
  induction p generalizing n with
  | nil => rfl
  | cons i p ih =>
    rw [at?_cons, Option.bind_eq_some_iff] at h
    obtain ⟨k, hk, hm⟩ := h
    cases n with
    | leaf hd d => cases hk
    | branch hd cs =>
      rw [children_branch] at hk
      rw [setAt, at?_cons, children_branch, List.getElem?_modify, hk]
      simp [ih hm]

theorem setAt_setAt (p : Path) (n new old : Node α) :
    setAt new p (setAt old p n) = setAt new p n := by
  induction p generalizing n with
  | nil => rfl
  | cons i p ih =>
    cases n with
    | leaf hd d => rfl
    | branch hd cs =>
      rw [setAt, setAt, setAt, List.modify_modify_eq]
      congr 2
      funext c
      exact ih c

/-- What is set below a node is set inside it. -/
theorem setAt_append {n m : Node α} {r : Path} (hm : n.at? r = some m) (new : Node α) (p : Path) :
    setAt new (r ++ p) n = setAt (setAt new p m) r n := by
  induction r generalizing n with
  | nil =>
    cases hm
    rfl
  | cons i r ih =>
    rw [at?_cons, Option.bind_eq_some_iff] at hm
    obtain ⟨c, hc, hm⟩ := hm
    cases n with
    | leaf h d => cases hc
    | branch h cs =>
      rw [children_branch] at hc
      rw [List.cons_append, setAt, setAt, Forest.modify_eq_set hc, Forest.modify_eq_set hc, ih hm]

/-- Replacements at parted places commute. -/
theorem setAt_comm {p q : Path} (h : Part p q) (n a b : Node α) :
    setAt b q (setAt a p n) = setAt a p (setAt b q n) := by
  induction p generalizing q n with
  | nil => exact absurd h (not_part_nil q)
  | cons i p ih =>
    cases q with
    | nil => exact absurd h.symm (not_part_nil _)
    | cons j q =>
      cases n with
      | leaf hd d => rfl
      | branch hd cs =>
        simp only [setAt]
        -- the paths part at this branch, or below the child that both go through
        by_cases hij : i = j
        · subst hij
          have hpq : Part p q := (part_cons.mp h).resolve_left (not_not_intro rfl)
          rw [List.modify_modify_eq, List.modify_modify_eq]
          congr 2
          funext c
          exact ih hpq c
        · rw [List.modify_modify_ne _ _ cs hij]

/-! ## 2. The path to a node -/

end Node

/-- Without repetitions the path to an id goes through the child that holds it. -/
theorem Forest.path?_of_getElem? {id : NodeId} {cs : Forest α} {i j : Nat} {c : Node α} {q : Path}
    (hd : (cs.flatMap Node.ids).Nodup) (hc : cs[j]? = some c) (hq : c.path? id = some q) :
    Forest.path? id i cs = some ((i + j) :: q) := by
  induction cs generalizing i j with
  | nil => cases hc
  | cons k cs ih =>
    rw [List.flatMap_cons, List.nodup_append] at hd
    cases j with
    | zero =>
      cases hc
      rw [Forest.path?, hq]
      rfl
    | succ j =>
      rw [List.getElem?_cons_succ] at hc
      have hmem : id ∈ cs.flatMap Node.ids := by
        refine List.mem_flatMap.mpr ⟨c, List.mem_of_getElem? hc, ?_⟩
        by_contra hnot
        rw [Node.path?_eq_none.mpr hnot] at hq
        cases hq
      -- the identifier is not below the siblings before
      have hnone : k.path? id = none := Node.path?_eq_none.mpr fun hk => hd.2.2 id hk id hmem rfl
      rw [Forest.path?, hnone]
      show Forest.path? id (i + 1) cs = _
      rw [ih hd.2.1 hc, Nat.add_right_comm, Nat.add_assoc]

namespace Node

/-- In a tree with distinct identifiers the path to a node is the one that is found. -/
theorem path?_of_at? {n m : Node α} {p : Path} (hd : n.ids.Nodup) (h : n.at? p = some m) :
    n.path? m.id = some p := by
  induction p generalizing n with
  | nil =>
    cases h
    cases m <;> exact if_pos rfl
  | cons i p ih =>
    rw [at?_cons, Option.bind_eq_some_iff] at h
    obtain ⟨c, hc, hm⟩ := h
    cases n with
    | leaf hd d => cases hc
    | branch hd' cs =>
      rw [children_branch] at hc
      rw [ids_branch, List.nodup_cons] at hd
      have hmem : m.id ∈ cs.flatMap ids := List.mem_flatMap.mpr
        ⟨c, List.mem_of_getElem? hc, id_mem_of_mem_nodes (mem_nodes_of_at? hm)⟩
      have hne : hd'.id ≠ m.id := fun heq => hd.1 (heq ▸ hmem)
      have hchild : c.ids.Nodup := (List.nodup_flatMap.mp hd.2).1 c (List.mem_of_getElem? hc)
      rw [path?, if_neg hne, Forest.path?_of_getElem? hd.2 hc (ih hchild hm), Nat.zero_add]

/-- A path begins another just if the node at its end has the other's node below it. -/
theorem isPrefixOf_iff_mem_ids {n a b : Node α} {p q : Path} (hd : n.ids.Nodup)
    (ha : n.at? p = some a) (hb : n.at? q = some b) : p.isPrefixOf q ↔ b.id ∈ a.ids := by
  constructor
  · exact fun h => id_mem_of_mem_nodes (mem_nodes_of_isPrefixOf ha hb h)
  · intro hmem
    obtain ⟨m, hm, hid⟩ := mem_ids.mp hmem
    obtain ⟨r, hr⟩ := exists_at?_of_mem_nodes hm
    have hbelow : n.at? (p ++ r) = some m := by rw [at?_append, ha, Option.bind_some, hr]
    -- the path through the upper node is the path that is found for the lower one
    have hpath := path?_of_at? hd hbelow
    rw [hid, path?_of_at? hd hb, Option.some.injEq] at hpath
    rw [hpath, List.isPrefixOf_iff_prefix]
    exact List.prefix_append p r

/-! ## 3. A node in another's place -/

def inPlaceOf (n place : Node α) : Node α :=
  (n.withSize place.size).orient place.orientation

theorem swapAt_eq (root : Node α) (p q : Path) (a b : Node α) :
    root.swapAt p q a b = setAt (a.inPlaceOf b) q (setAt (b.inPlaceOf a) p root) := rfl

@[simp] theorem id_inPlaceOf (n place : Node α) : (n.inPlaceOf place).id = n.id := by
  simp [inPlaceOf]

@[simp] theorem ids_inPlaceOf (n place : Node α) : (n.inPlaceOf place).ids = n.ids := by
  simp [inPlaceOf]

@[simp] theorem size_inPlaceOf (n place : Node α) : (n.inPlaceOf place).size = place.size := by
  simp [inPlaceOf]

@[simp] theorem orientation_inPlaceOf (n place : Node α) :
    (n.inPlaceOf place).orientation = place.orientation :=
  orientation_orient _ _

@[simp] theorem isLeaf_inPlaceOf (n place : Node α) : (n.inPlaceOf place).isLeaf = n.isLeaf := by
  simp [inPlaceOf]

@[simp] theorem visible_inPlaceOf (n place : Node α) :
    (n.inPlaceOf place).visible = n.visible := by
  simp [inPlaceOf]

@[simp] theorem inPlaceOf_inPlaceOf (n place other : Node α) :
    (n.inPlaceOf place).inPlaceOf other = n.inPlaceOf other := by
  rw [inPlaceOf, inPlaceOf, inPlaceOf, ← orient_withSize, withSize_withSize, orient_orient]

/-- Back in its own place a node is as it was. -/
theorem Alternating.inPlaceOf_eq {n place : Node α} (h : n.Alternating)
    (hsize : place.size = n.size) (ho : place.orientation = n.orientation) :
    n.inPlaceOf place = n := by
  rw [inPlaceOf, hsize, withSize_size, ho, h.orient_eq]

/-! ## 4. The exchange -/

theorem Apart.symm {n a b : Node α} {p q : Path} (h : n.Apart p q a b) : n.Apart q p b a :=
  ⟨h.part.symm, h.at_second, h.at_first⟩

/-- Which of the two subtrees is named first does not matter. -/
theorem swapAt_comm {p q : Path} (h : Part p q) (root a b : Node α) :
    root.swapAt q p b a = root.swapAt p q a b := by
  rw [swapAt_eq, swapAt_eq]
  exact setAt_comm h.symm root _ _

/-- At either of two places that part is what was set there. -/
theorem Apart.at?_setAt_setAt {n a b : Node α} {p q : Path} (h : n.Apart p q a b) (x y : Node α) :
    (setAt y q (setAt x p n)).at? p = some x ∧ (setAt y q (setAt x p n)).at? q = some y := by
  have hsecond : (setAt x p n).at? q = some b := (at?_setAt h.part n x).trans h.at_second
  refine ⟨?_, at?_setAt_self hsecond y⟩
  rw [at?_setAt h.part.symm]
  exact at?_setAt_self h.at_first x

/-- After the exchange each of the two is where the other was. -/
theorem Apart.swapAt {n a b : Node α} {p q : Path} (h : n.Apart p q a b) :
    (n.swapAt p q a b).Apart p q (b.inPlaceOf a) (a.inPlaceOf b) := by
  obtain ⟨hfirst, hsecond⟩ := h.at?_setAt_setAt (b.inPlaceOf a) (a.inPlaceOf b)
  exact ⟨h.part, hfirst, hsecond⟩

/-- Two exchanges at the same places give the tree back. -/
theorem Apart.swapAt_swapAt {n a b : Node α} {p q : Path} (h : n.Apart p q a b)
    (ha : a.Alternating) (hb : b.Alternating) :
    (n.swapAt p q a b).swapAt p q (b.inPlaceOf a) (a.inPlaceOf b) = n := by
  have hback : (a.inPlaceOf b).inPlaceOf (b.inPlaceOf a) = a := by
    rw [inPlaceOf_inPlaceOf]
    exact ha.inPlaceOf_eq (size_inPlaceOf b a) (orientation_inPlaceOf b a)
  have hback' : (b.inPlaceOf a).inPlaceOf (a.inPlaceOf b) = b := by
    rw [inPlaceOf_inPlaceOf]
    exact hb.inPlaceOf_eq (size_inPlaceOf a b) (orientation_inPlaceOf a b)
  rw [swapAt_eq, swapAt_eq, hback, hback']
  -- what was written to either place in between does not show
  calc setAt b q (setAt a p (setAt (a.inPlaceOf b) q (setAt (b.inPlaceOf a) p n)))
    _ = setAt b q (setAt (a.inPlaceOf b) q (setAt a p (setAt (b.inPlaceOf a) p n))) := by
      rw [setAt_comm h.part.symm]
    _ = setAt b q (setAt a p n) := by rw [setAt_setAt, setAt_setAt]
    _ = n := by rw [setAt_at? h.at_first, setAt_at? h.at_second]

end Node

end Tiling
