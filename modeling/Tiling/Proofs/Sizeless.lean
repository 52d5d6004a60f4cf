import Tiling.Proofs.Graft
import Tiling.Proofs.Headers
import Tiling.Proofs.Step

/-!
# Sizes never influence structure

Every operation reads sizes only to write sizes. So what it makes of a tree without its sizes is,
but for sizes, what it makes of the tree itself; and two runs that differ in sizes alone accept and
reject the same actions and differ in sizes alone to the end.
-/

namespace Tiling

variable {α : Type}

/-! ## 1. Trees without sizes -/

def Header.sizeless (h : Header) : Header :=
  { h with size := Share.whole }

namespace Node

def sizeless (n : Node α) : Node α :=
  n.mapHeaders Header.sizeless

theorem id_header_sizeless (h : Header) : h.sizeless.id = h.id := rfl

@[simp] theorem sizeless_leaf (h : Header) (d : α) : (leaf h d).sizeless = leaf h.sizeless d := rfl

@[simp] theorem sizeless_branch (h : Header) (cs : Forest α) :
    (branch h cs).sizeless = branch h.sizeless (cs.map sizeless) :=
  mapHeaders_branch h cs

@[simp] theorem sizeless_sizeless (n : Node α) : n.sizeless.sizeless = n.sizeless :=
  mapHeaders_mapHeaders _ _ n

@[simp] theorem isLeaf_sizeless (n : Node α) : n.sizeless.isLeaf = n.isLeaf :=
  isLeaf_mapHeaders n

@[simp] theorem children_sizeless (n : Node α) : n.sizeless.children = n.children.map sizeless :=
  children_mapHeaders n

@[simp] theorem id_sizeless (n : Node α) : n.sizeless.id = n.id :=
  id_mapHeaders id_header_sizeless n

@[simp] theorem orientation_sizeless (n : Node α) : n.sizeless.orientation = n.orientation := by
  cases n <;> rfl

@[simp] theorem ids_sizeless (n : Node α) : n.sizeless.ids = n.ids :=
  ids_mapHeaders id_header_sizeless n

@[simp] theorem leaves_sizeless (n : Node α) : n.sizeless.leaves = n.leaves.map sizeless :=
  leaves_mapHeaders n

@[simp] theorem firstLeafId?_sizeless (n : Node α) : n.sizeless.firstLeafId? = n.firstLeafId? :=
  firstLeafId?_mapHeaders id_header_sizeless n

@[simp] theorem contains_sizeless (n : Node α) (id : NodeId) :
    n.sizeless.contains id = n.contains id :=
  contains_mapHeaders id_header_sizeless id n

@[simp] theorem find?_sizeless (n : Node α) (id : NodeId) :
    n.sizeless.find? id = (n.find? id).map sizeless :=
  find?_mapHeaders id_header_sizeless id n

@[simp] theorem parent?_sizeless (n : Node α) (id : NodeId) :
    n.sizeless.parent? id = (n.parent? id).map sizeless :=
  parent?_mapHeaders id_header_sizeless id n

@[simp] theorem path?_sizeless (n : Node α) (id : NodeId) : n.sizeless.path? id = n.path? id :=
  path?_mapHeaders id_header_sizeless id n

@[simp] theorem slot?_sizeless (n : Node α) (capacity : Nat) :
    n.sizeless.slot? capacity = n.slot? capacity :=
  slot?_mapHeaders id_header_sizeless n capacity

@[simp] theorem childIndex?_sizeless (n : Node α) (id : NodeId) :
    n.sizeless.childIndex? id = n.childIndex? id := by
  rw [childIndex?, children_sizeless, childIndex?]
  exact (congrArg _ (Forest.mapHeaders_eq_map _)).symm.trans
    (Forest.index?_mapHeaders id_header_sizeless id n.children)

/-! ## 2. Edits -/

@[simp] theorem sizeless_withSize (n : Node α) (size : Float32) :
    (n.withSize size).sizeless = n.sizeless := by
  cases n with
  | leaf h d => rfl
  | branch h cs => simp [withSize, mapHeader, Header.sizeless]

@[simp] theorem sizeless_orient (o : Orientation) (n : Node α) :
    (n.orient o).sizeless = n.sizeless.orient o := by
  induction n generalizing o with
  | leaf h d => rfl
  | branch h cs ih =>
    simp only [orient, Forest.orient_eq_map, sizeless_branch, List.map_map]
    congr 1
    exact List.map_congr_left fun c hc => ih c hc _

theorem sizeless_wrap (n : Node α) (id : NodeId) (o : Orientation) :
    (n.wrap id o).sizeless = (n.sizeless.wrap id o).sizeless := by
  cases n with
  | leaf h d => rfl
  | branch h cs => simp [wrap, withSize, mapHeader, Header.sizeless, size, visible, header]

theorem sizeless_joining (n : Node α) (cs : Forest α) : (n.joining cs).sizeless = n.sizeless := by
  rw [joining]
  split <;> simp

/-- Up to sizes, a graft does the same to the trees without theirs. -/
theorem sizeless_graft (n : Node α) (i : Nat) (child : Node α) :
    (n.graft i child).sizeless = (n.sizeless.graft i child.sizeless).sizeless := by
  cases n with
  | leaf h d => rfl
  | branch h cs =>
    simp [graft_branch, joined, sizeless_joining, Header.sizeless, Function.comp_def]

theorem sizeless_adopt (n : Node α) (i : Nat) (child : Node α) (ids : IdSupply) :
    (n.adopt i child ids).1.sizeless = (n.sizeless.adopt i child.sizeless ids).1.sizeless ∧
      (n.adopt i child ids).2 = (n.sizeless.adopt i child.sizeless ids).2 := by
  rw [adopt, adopt, isLeaf_sizeless, orientation_sizeless]
  split
  · simp only [IdSupply.mint, and_true]
    rw [sizeless_graft, sizeless_wrap, ← sizeless_sizeless child, ← sizeless_graft,
      sizeless_sizeless]
  · exact ⟨sizeless_graft n i child, rfl⟩

@[simp] theorem sizeless_dropChild (n : Node α) (id : NodeId) (start : Nat) :
    (n.dropChild id start).sizeless = n.sizeless.dropChild id start := by
  cases n with
  | leaf h d => rfl
  | branch h cs =>
    have hindex : ((cs.map sizeless).drop start).findIdx? (fun c => c.id = id) =
        (cs.drop start).findIdx? fun c => c.id = id := by
      rw [← List.map_drop, List.findIdx?_map]
      simp [Function.comp_def]
    simp only [dropChild, dropChild?, sizeless_branch, hindex]
    cases (cs.drop start).findIdx? fun c => c.id = id with
    | none => simp
    | some i =>
      cases hc : cs[start + i]? with
      | none => simp [hc]
      | some c => simp [hc, List.eraseIdx_eq_take_drop_succ]

theorem sizeless_inherit (n : Node α) (place : Header) :
    (n.inherit place).sizeless = (n.sizeless.inherit place.sizeless).sizeless := by
  cases n with
  | leaf h d => rfl
  | branch h cs =>
    simp [inherit, withSize, mapHeader, Header.sizeless, Function.comp_def]

/-! ## 3. Balancing -/

/-- Pruning is blind to sizes. -/
theorem prune?_sizeless (n : Node α) :
    n.sizeless.prune?.map sizeless = n.prune?.map sizeless := by
  induction n with
  | leaf h d => rfl
  | branch h cs ih =>
    -- the same children are kept, up to sizes
    have hkept : ((cs.map sizeless).filterMap prune?).map sizeless =
        (cs.filterMap prune?).map sizeless := by
      rw [List.filterMap_map, List.map_filterMap, List.map_filterMap]
      exact List.filterMap_congr ih
    rw [sizeless_branch, prune?_branch, prune?_branch]
    generalize (cs.map sizeless).filterMap prune? = kept at hkept
    generalize cs.filterMap prune? = kept' at hkept
    rcases kept with _ | ⟨a, _ | ⟨b, cs⟩⟩ <;> rcases kept' with _ | ⟨c, _ | ⟨d, ds⟩⟩ <;>
      simp only [List.map_cons, List.map_nil, List.cons.injEq, and_true, reduceCtorEq,
        and_false] at hkept
    · rfl
    · simp only [Option.map_some, Option.some.injEq]
      rw [sizeless_inherit, hkept, sizeless_inherit c]
      rfl
    · simp only [Option.map_some, sizeless_branch, Forest.map_normalize sizeless_withSize,
        List.map_cons, hkept]
      rfl

/-- Balancing is blind to sizes. -/
theorem balance?_sizeless (n : Node α) :
    n.sizeless.balance?.map sizeless = n.balance?.map sizeless := by
  have hprune := prune?_sizeless n
  rw [balance?, balance?]
  cases hk : n.prune? with
  | none =>
    rw [hk, Option.map_none, Option.map_eq_none_iff] at hprune
    rw [hprune]
  | some k =>
    rw [hk, Option.map_some, Option.map_eq_some_iff] at hprune
    obtain ⟨m, hm, hmk⟩ := hprune
    rw [hm, Option.map_some, Option.map_some, Option.map_some, Option.map_some, sizeless_orient,
      sizeless_orient, hmk, ← orientation_sizeless m, hmk, orientation_sizeless]

end Node

end Tiling
