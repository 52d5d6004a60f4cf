import Tiling.Proofs.Graft

/-!
# The order of the leaves

The leaf sequence of a tree is that of its children, one after the other. Sizes, orientations and
the branches between do not show in it, so balancing keeps it; and in a context it falls into the
leaves before the hole and those after it.
-/

namespace Tiling

variable {α : Type}

open Context

/-! ## 1. The leaf sequence of a subtree -/

namespace Node

@[simp] theorem leafIds_leaf (h : Header) (d : α) : (leaf h d).leafIds = [h.id] := by
  rw [leafIds, leaves, nodes_leaf]
  rfl

@[simp] theorem leafIds_branch (h : Header) (cs : Forest α) :
    (branch h cs).leafIds = cs.flatMap leafIds := by
  rw [leafIds, leaves, nodes_branch, List.filter_cons_of_neg (by simp), List.filter_flatMap,
    List.map_flatMap]
  rfl

theorem leafIds_sublist (n : Node α) : n.leafIds.Sublist n.ids :=
  List.filter_sublist.map _

theorem leafIds_mapHeader {f : Header → Header} (hf : ∀ h, (f h).id = h.id) (n : Node α) :
    (n.mapHeader f).leafIds = n.leafIds := by
  cases n with
  | leaf h d => rw [mapHeader, leafIds_leaf, leafIds_leaf, hf]
  | branch h cs => rw [mapHeader, leafIds_branch, leafIds_branch]

@[simp] theorem leafIds_withSize (n : Node α) (size : Float32) :
    (n.withSize size).leafIds = n.leafIds := by
  rw [withSize, leafIds_mapHeader]
  intro _
  rfl

@[simp] theorem leafIds_withOrientation (n : Node α) (o : Orientation) :
    (n.withOrientation o).leafIds = n.leafIds := by
  rw [withOrientation, leafIds_mapHeader]
  intro _
  rfl

@[simp] theorem leafIds_orient (o : Orientation) (n : Node α) :
    (n.orient o).leafIds = n.leafIds := by
  induction n generalizing o with
  | leaf h d => rw [orient, leafIds_leaf, leafIds_leaf]
  | branch h cs ih =>
    rw [orient, Forest.orient_eq_map, leafIds_branch, leafIds_branch, List.flatMap_map]
    exact List.flatMap_congr fun c hc => ih c hc _

@[simp] theorem leafIds_inner (n : Node α) (o : Orientation) :
    (n.inner o).leafIds = n.leafIds := by
  rw [inner]
  split <;> simp

@[simp] theorem leafIds_joined (child : Node α) (h : Header) (cs : Forest α) :
    (child.joined h cs).leafIds = child.leafIds := by
  rw [joined, joining]
  split <;> simp

theorem leafIds_inherit (n : Node α) (place : Header) : (n.inherit place).leafIds = n.leafIds := by
  rw [inherit]
  split <;> simp

/-! ## 2. Balancing -/

theorem leafIds_prune? (n : Node α) : n.prune?.toList.flatMap leafIds = n.leafIds := by
  induction n with
  | leaf h d => simp [prune?]
  | branch h cs ih =>
    rw [prune?_branch, leafIds_branch, ← flatMap_filterMap_prune? ih]
    -- nothing remains of the branch, or the one child in its place, or the branch
    cases cs.filterMap prune? with
    | nil => simp
    | cons k ks =>
      cases ks with
      | nil => simp [leafIds_inherit]
      | cons k' ks => simp [Forest.flatMap_normalize leafIds_withSize]

/-- Balancing keeps the leaves and their order. -/
theorem leafIds_of_balance? {m n : Node α} (h : n.balance? = some m) : m.leafIds = n.leafIds := by
  obtain ⟨k, hk, rfl⟩ := Option.map_eq_some_iff.mp h
  rw [leafIds_orient, ← leafIds_prune? n, hk]
  simp

end Node

/-! ## 3. The leaves around a hole -/

namespace Context

def leavesBefore : Context α → List NodeId
  | [] => []
  | f :: c => f.before.flatMap Node.leafIds ++ leavesBefore c

def leavesAfter : Context α → List NodeId
  | [] => []
  | f :: c => leavesAfter c ++ f.after.flatMap Node.leafIds

/-- The leaves of a tree are those before a subtree, its own and those after it. -/
theorem leafIds_plug (c : Context α) (n : Node α) :
    (plug c n).leafIds = leavesBefore c ++ n.leafIds ++ leavesAfter c := by
  induction c with
  | nil => simp [leavesBefore, leavesAfter]
  | cons f c ih => simp [Frame.fill, ih, leavesBefore, leavesAfter]

theorem leavesBefore_append (c d : Context α) :
    leavesBefore (c ++ d) = leavesBefore c ++ leavesBefore d := by
  induction c with
  | nil => rfl
  | cons f c ih => rw [List.cons_append, leavesBefore, ih, leavesBefore, List.append_assoc]

theorem leavesAfter_append (c d : Context α) :
    leavesAfter (c ++ d) = leavesAfter d ++ leavesAfter c := by
  induction c with
  | nil => exact (List.append_nil _).symm
  | cons f c ih => rw [List.cons_append, leavesAfter, ih, leavesAfter, List.append_assoc]

end Context

end Tiling
