import Tiling.Proofs.Census
import Tiling.State.Step

/-!
# Paths and the exchange of two nodes

A path that leads to a node picks out a context, and to set the node at the path is to fill that
context anew. Where neither of two paths begins the other, an edit at one is not seen at the other,
so exchanging two nodes keeps the census.
-/

namespace Tiling

variable {α : Type}

open Context
open scoped List

/-! ## 1. Finding a path -/

theorem Forest.path?_eq_some {id : NodeId} {i : Nat} {cs : Forest α} {p : Path}
    (h : Forest.path? id i cs = some p) :
    ∃ j c q, cs[j]? = some c ∧ c.path? id = some q ∧ p = (i + j) :: q := by
  induction cs generalizing i with
  | nil => cases h
  | cons c cs ih =>
    rw [Forest.path?] at h
    split at h
    · next q hq =>
      cases h
      exact ⟨0, c, q, rfl, hq, rfl⟩
    · obtain ⟨j, k, q, hk, hq, rfl⟩ := ih h
      exact ⟨j + 1, k, q, hk, hq, by rw [Nat.add_right_comm, Nat.add_assoc]⟩

theorem Forest.path?_eq_none {id : NodeId} {i : Nat} {cs : Forest α} :
    Forest.path? id i cs = none ↔ ∀ c ∈ cs, c.path? id = none := by
  induction cs generalizing i with
  | nil => simp [Forest.path?]
  | cons c cs ih =>
    rw [Forest.path?, List.forall_mem_cons]
    cases hc : c.path? id with
    | some q => simp
    | none => simp [ih]

namespace Node

/-- A path is found for exactly the ids of the tree. -/
theorem path?_eq_none {id : NodeId} {n : Node α} : n.path? id = none ↔ id ∉ n.ids := by
  induction n with
  | leaf h d =>
    rw [path?, ids_leaf, List.mem_singleton]
    by_cases hid : h.id = id
    · simp [hid]
    · simp [hid, Ne.symm hid]
  | branch h cs ih =>
    by_cases hid : h.id = id
    · simp [path?, hid]
    · rw [path?, if_neg hid, Forest.path?_eq_none, not_mem_ids_branch, and_iff_right (Ne.symm hid)]
      exact forall₂_congr ih

theorem at?_cons (n : Node α) (i : Nat) (p : Path) :
    n.at? (i :: p) = n.children[i]?.bind (at? · p) := by
  rw [at?]
  split <;> simp [*]

/-- The path that is found leads to a node of the identifier. -/
theorem at?_of_path? {id : NodeId} {n : Node α} {p : Path} (h : n.path? id = some p) :
    ∃ m, n.at? p = some m ∧ m.id = id := by
  induction n generalizing p with
  | leaf hd d =>
    rw [path?] at h
    split at h
    · next hid =>
      cases h
      exact ⟨_, rfl, hid⟩
    · cases h
  | branch hd cs ih =>
    rw [path?] at h
    split at h
    · next hid =>
      cases h
      exact ⟨_, rfl, hid⟩
    · obtain ⟨j, c, q, hc, hq, rfl⟩ := Forest.path?_eq_some h
      obtain ⟨m, hm, hid⟩ := ih c (List.mem_of_getElem? hc) hq
      refine ⟨m, ?_, hid⟩
      rw [at?_cons, children_branch, Nat.zero_add, hc, Option.bind_some, hm]

/-! ## 2. The node at a path -/

/-- Following a path in two stretches. -/
theorem at?_append (n : Node α) (p q : Path) : n.at? (p ++ q) = (n.at? p).bind (at? · q) := by
  induction p generalizing n with
  | nil => rfl
  | cons i p ih =>
    rw [List.cons_append, at?_cons, at?_cons, Option.bind_assoc]
    exact Option.bind_congr fun c _ => ih c

/-- The node at a path stands in one context, and replacing it fills that context anew. -/
theorem exists_plug_of_at? {n m : Node α} {p : Path} (h : n.at? p = some m) :
    ∃ c : Context α, n = plug c m ∧ ∀ new, setAt new p n = plug c new := by
  induction p generalizing n with
  | nil =>
    cases h
    exact ⟨[], rfl, fun _ => rfl⟩
  | cons i p ih =>
    rw [at?_cons, Option.bind_eq_some_iff] at h
    obtain ⟨k, hk, hm⟩ := h
    obtain ⟨c, hplug, hset⟩ := ih hm
    cases n with
    | leaf hd d => cases hk
    | branch hd cs =>
      rw [children_branch] at hk
      obtain ⟨hi, hget⟩ := List.getElem?_eq_some_iff.mp hk
      -- the siblings of the child on the path are the frame around it
      refine ⟨⟨hd, cs.take i, cs.drop (i + 1)⟩ :: c, ?_, fun new => ?_⟩
      · rw [plug_cons, Frame.fill, ← hplug, ← hget, List.getElem_cons_drop,
          List.take_append_drop]
      · rw [setAt, List.modify_eq_take_cons_drop hi, hget, hset]
        rfl

theorem mem_nodes_of_at? {n m : Node α} {p : Path} (h : n.at? p = some m) : m ∈ n.nodes := by
  obtain ⟨c, rfl, -⟩ := exists_plug_of_at? h
  exact mem_nodes_plug c m

/-- Every node has a path. -/
theorem exists_at?_of_mem_nodes {n m : Node α} (h : m ∈ n.nodes) : ∃ p, n.at? p = some m := by
  induction n with
  | leaf hd d =>
    rw [nodes_leaf, List.mem_singleton] at h
    exact ⟨[], congrArg some h.symm⟩
  | branch hd cs ih =>
    rw [nodes_branch, List.mem_cons, List.mem_flatMap] at h
    cases h with
    | inl h => exact ⟨[], congrArg some h.symm⟩
    | inr h =>
      obtain ⟨c, hc, hm⟩ := h
      obtain ⟨p, hp⟩ := ih c hc hm
      obtain ⟨i, hi⟩ := List.getElem?_of_mem hc
      refine ⟨i :: p, ?_⟩
      rw [at?_cons, children_branch, hi, Option.bind_some, hp]

/-- What lies further along a path lies below. -/
theorem mem_nodes_of_isPrefixOf {n a b : Node α} {p q : Path} (ha : n.at? p = some a)
    (hb : n.at? q = some b) (h : p.isPrefixOf q) : b ∈ a.nodes := by
  obtain ⟨r, rfl⟩ := List.isPrefixOf_iff_prefix.mp h
  rw [at?_append, ha, Option.bind_some] at hb
  exact mem_nodes_of_at? hb

/-! ## 3. Two paths that part -/

def Part (p q : Path) : Prop :=
  p.isPrefixOf q = false ∧ q.isPrefixOf p = false

theorem not_part_nil (q : Path) : ¬Part [] q :=
  fun h => Bool.noConfusion h.1

theorem Part.symm {p q : Path} (h : Part p q) : Part q p :=
  And.symm h

theorem Part.ne {p q : Path} (h : Part p q) : p ≠ q := by
  rintro rfl
  have hself : p.isPrefixOf p := List.isPrefixOf_iff_prefix.mpr (List.prefix_refl p)
  rw [h.1] at hself
  cases hself

theorem part_cons {i j : Nat} {p q : Path} : Part (i :: p) (j :: q) ↔ i ≠ j ∨ Part p q := by
  by_cases hij : i = j
  · subst hij
    simp [Part]
  · have hij' : (i == j) = false := beq_false_of_ne hij
    have hji' : (j == i) = false := beq_false_of_ne (Ne.symm hij)
    simp [Part, List.isPrefixOf, hij, hij', hji']

/-- Two paths part exactly when neither is on the way to the other. -/
theorem part_iff {p q : Path} : Part p q ↔ ¬(p <+: q ∨ q <+: p) := by
  simp [Part, ← List.isPrefixOf_iff_prefix]

/-- Replacing a subtree leaves what stands beside it. -/
theorem at?_setAt {p q : Path} (h : Part p q) (n new : Node α) :
    (setAt new p n).at? q = n.at? q := by
  induction p generalizing q n with
  | nil => exact absurd h (not_part_nil q)
  | cons i p ih =>
    cases q with
    | nil => exact absurd h.symm (not_part_nil _)
    | cons j q =>
      cases n with
      | leaf hd d => rfl
      | branch hd cs =>
        rw [setAt, at?_cons, at?_cons, children_branch, children_branch, List.getElem?_modify]
        -- the paths part at this branch, or below the child that both go through
        by_cases hij : i = j
        · have hpq : Part p q := (part_cons.mp h).resolve_left (not_not_intro hij)
          cases cs[j]? with
          | none => rfl
          | some c => simp [hij, ih hpq c]
        · cases cs[j]? with
          | none => rfl
          | some c => simp [hij]

theorem pairAt_eq {p q : Path} (h : Part p q) {n a b : Node α} (ha : n.at? p = some a)
    (hb : n.at? q = some b) : n.pairAt p q = .ok (some (a, b)) := by
  induction p generalizing q n with
  | nil => exact absurd h (not_part_nil q)
  | cons i p ih =>
    cases q with
    | nil => exact absurd h.symm (not_part_nil _)
    | cons j q =>
      rw [at?_cons, Option.bind_eq_some_iff] at ha hb
      obtain ⟨c, hc, ha⟩ := ha
      obtain ⟨c', hc', hb⟩ := hb
      -- the paths go through one child, or part at this branch
      rw [pairAt]
      by_cases hij : i = j
      · subst hij
        rw [hc, Option.some.injEq] at hc'
        subst hc'
        rw [if_pos rfl, hc]
        exact ih ((part_cons.mp h).resolve_left (not_not_intro rfl)) ha hb
      · have hi : i < n.children.length := (List.getElem?_eq_some_iff.mp hc).1
        have hj : j < n.children.length := (List.getElem?_eq_some_iff.mp hc').1
        have hleaf : n.isLeaf = false := by
          cases n with
          | leaf hd d => cases hc
          | branch hd cs => rfl
        rw [if_neg hij, hleaf, if_neg Bool.false_ne_true, if_neg (by omega), hc, hc']
        simp [ha, hb]

theorem pairAt_eq_none {p q : Path} (h : p <+: q ∨ q <+: p) (n : Node α) :
    n.pairAt p q = .ok none := by
  induction p generalizing q n with
  | nil => rw [pairAt]; simp
  | cons i p ih =>
    cases q with
    | nil => rw [pairAt]; simp
    | cons j q =>
      rw [List.cons_prefix_cons, List.cons_prefix_cons] at h
      -- both paths go through one child
      obtain ⟨rfl, hpq⟩ : i = j ∧ (p <+: q ∨ q <+: p) :=
        h.elim (fun h => ⟨h.1, .inl h.2⟩) fun h => ⟨h.1.symm, .inr h.2⟩
      rw [pairAt, if_pos rfl]
      cases n.children[i]? with
      | none => rfl
      | some c => exact ih hpq c

/-- A pair below one subtree is a pair of that subtree. -/
theorem pairAt_append (n : Node α) (r p q : Path) : n.pairAt (r ++ p) (r ++ q) =
    match n.at? r with
    | none => .ok none
    | some m => m.pairAt p q := by
  induction r generalizing n with
  | nil => rfl
  | cons i r ih =>
    rw [List.cons_append, List.cons_append, pairAt, if_pos rfl, at?_cons]
    cases n.children[i]? with
    | none => rfl
    | some c => exact ih c

/-- Two nodes of the tree, neither of which is below the other, and where they are. -/
structure Apart (n : Node α) (p q : Path) (a b : Node α) : Prop where
  part : Part p q
  at_first : n.at? p = some a
  at_second : n.at? q = some b

/-- An exchange keeps the census: each of the two nodes leaves the entries around it as they are. -/
theorem census_swapAt {p q : Path} (h : Part p q) {n a b : Node α} (ha : n.at? p = some a)
    (hb : n.at? q = some b) (hba : a.bears) (hbb : b.bears) :
    (n.swapAt p q a b).census ~ n.census := by
  obtain ⟨c, hn, hset⟩ := exists_plug_of_at? ha
  rw [swapAt]
  generalize hb' : (b.withSize a.size).orient a.orientation = b'
  generalize ha' : (a.withSize b.size).orient b.orientation = a'
  have hcb : b'.census = b.census := by rw [← hb', census_orient, census_withSize]
  have hca : a'.census = a.census := by rw [← ha', census_orient, census_withSize]
  have hbb' : b'.bears := by rwa [← hb', bears_orient, bears_withSize]
  have hba' : a'.bears := by rwa [← ha', bears_orient, bears_withSize]
  have hafter : (setAt b' p n).at? q = some b := (at?_setAt h n b').trans hb
  obtain ⟨d, hmid, hset'⟩ := exists_plug_of_at? hafter
  rw [hset'] at *
  -- the tree between the two edits holds `b` twice, so both holes have the same surroundings
  have hsame : c.census ++ b.census ~ d.census ++ b.census := by
    have hone := census_plug (c := c) hbb'
    rw [← hset, hmid, hcb] at hone
    exact hone.symm.trans (census_plug hbb)
  calc (plug d a').census
    _ ~ d.census ++ a'.census := census_plug hba'
    _ ~ c.census ++ a.census := by
      rw [hca]
      exact ((List.perm_append_right_iff _).mp hsame).symm.append_right _
    _ ~ (plug c a).census := (census_plug hba).symm
    _ = n.census := by rw [← hn]

end Node

end Tiling
