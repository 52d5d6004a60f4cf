import Tiling.Proofs.Context

/-!
# The census of a tree

The census lists for each node its identifier and, for a branch, how many of its children have a
leaf below them. These numbers alone decide which nodes balancing keeps: the leaves and the branches
of two or more such children. An edit at one place changes the census at that place only.
-/

namespace Tiling

variable {α : Type}

open Context
open scoped List

/-! ## 1. Entries -/

/-- A node in the census: its identifier, and the number of children with leaves for a branch. -/
structure Entry where
  id : NodeId
  forks : Option Nat

def Entry.stays (e : Entry) : Bool :=
  -- An entry of a leaf has no fork.
  e.forks.all (2 ≤ ·)

@[simp] theorem Entry.stays_leaf (id : NodeId) : (Entry.mk id none).stays = true := rfl

@[simp] theorem Entry.stays_branch (id : NodeId) (k : Nat) :
    (Entry.mk id (some k)).stays = decide (2 ≤ k) := rfl

namespace Node

def bears (n : Node α) : Bool :=
  n.nodes.any isLeaf

def entry (n : Node α) : Entry :=
  ⟨n.id, if n.isLeaf then none else some (n.children.countP bears)⟩

def census (n : Node α) : List Entry :=
  n.nodes.map entry

def survivors (n : Node α) : List NodeId :=
  (n.census.filter Entry.stays).map Entry.id

@[simp] theorem bears_leaf (h : Header) (d : α) : (leaf h d).bears = true := rfl

@[simp] theorem bears_branch (h : Header) (cs : Forest α) :
    (branch h cs).bears = cs.any bears := by
  rw [bears, nodes_branch, List.any_cons, isLeaf_branch, Bool.false_or, List.any_flatMap]
  rfl

theorem bears_branch_iff {h : Header} {cs : Forest α} :
    (branch h cs).bears ↔ 0 < cs.countP bears := by
  rw [bears_branch, List.any_eq_true, List.countP_pos_iff]

@[simp] theorem census_leaf (h : Header) (d : α) : (leaf h d).census = [⟨h.id, none⟩] := by
  rw [census, nodes_leaf]
  rfl

@[simp] theorem census_branch (h : Header) (cs : Forest α) :
    (branch h cs).census = ⟨h.id, some (cs.countP bears)⟩ :: cs.flatMap census := by
  rw [census, nodes_branch, List.map_cons, List.map_flatMap]
  rfl

@[simp] theorem map_id_census (n : Node α) : n.census.map Entry.id = n.ids := by
  rw [census, List.map_map]
  rfl

/-- A subtree bears if it has leaves. -/
theorem leaves_ne_nil_iff (n : Node α) : n.leaves ≠ [] ↔ n.bears := by
  rw [leaves, ne_eq, List.filter_eq_nil_iff, bears, List.any_eq_true]
  push Not
  rfl

/-- A change of the header that keeps the identifier does not show. -/
theorem census_mapHeader {f : Header → Header} (hf : ∀ h, (f h).id = h.id) (n : Node α) :
    (n.mapHeader f).census = n.census := by
  cases n with
  | leaf h d => rw [mapHeader, census_leaf, census_leaf, hf]
  | branch h cs => rw [mapHeader, census_branch, census_branch, hf]

theorem bears_mapHeader (f : Header → Header) (n : Node α) : (n.mapHeader f).bears = n.bears := by
  cases n with
  | leaf h d => rfl
  | branch h cs => rw [mapHeader, bears_branch, bears_branch]

@[simp] theorem census_withSize (n : Node α) (size : Float32) :
    (n.withSize size).census = n.census := by
  rw [withSize, census_mapHeader]
  intro _
  rfl

@[simp] theorem bears_withSize (n : Node α) (size : Float32) : (n.withSize size).bears = n.bears :=
  bears_mapHeader _ n

@[simp] theorem census_withOrientation (n : Node α) (o : Orientation) :
    (n.withOrientation o).census = n.census := by
  rw [withOrientation, census_mapHeader]
  intro _
  rfl

@[simp] theorem bears_withOrientation (n : Node α) (o : Orientation) :
    (n.withOrientation o).bears = n.bears :=
  bears_mapHeader _ n

@[simp] theorem bears_orient (o : Orientation) (n : Node α) : (n.orient o).bears = n.bears := by
  induction n generalizing o with
  | leaf h d => rfl
  | branch h cs ih =>
    rw [orient, Forest.orient_eq_map, bears_branch, bears_branch, List.any_map]
    rw [Bool.eq_iff_iff, List.any_eq_true, List.any_eq_true]
    refine exists_congr fun c => and_congr_right fun hc => ?_
    rw [Function.comp_apply, ih c hc]

@[simp] theorem census_orient (o : Orientation) (n : Node α) : (n.orient o).census = n.census := by
  induction n generalizing o with
  | leaf h d => rw [orient, census_leaf, census_leaf]
  | branch h cs ih =>
    rw [orient, Forest.orient_eq_map, census_branch, census_branch, List.countP_map,
      List.flatMap_map]
    congr 1
    · congr 2
      exact List.countP_congr fun c _ => by simp
    · exact List.flatMap_congr fun c hc => ih c hc _

@[simp] theorem ids_orient (o : Orientation) (n : Node α) : (n.orient o).ids = n.ids := by
  rw [← map_id_census, census_orient, map_id_census]

@[simp] theorem ids_withSize (n : Node α) (size : Float32) : (n.withSize size).ids = n.ids := by
  rw [← map_id_census, census_withSize, map_id_census]

/-! ## 2. What balancing keeps -/

/-- A child with leaves counts for one. -/
theorem countP_bears_child {k : Node α} (hk : k.bears) (x y : Forest α) :
    (x ++ k :: y).countP bears = (x ++ y).countP bears + 1 := by
  rw [List.countP_append, List.countP_cons_of_pos hk, List.countP_append, Nat.add_assoc]

/-- A branch survives if at least two of its children bear. -/
theorem survivors_branch (h : Header) (cs : Forest α) :
    (branch h cs).survivors =
      (if 2 ≤ cs.countP bears then [h.id] else []) ++ cs.flatMap survivors := by
  have hcs : ((cs.flatMap census).filter Entry.stays).map Entry.id = cs.flatMap survivors := by
    rw [List.filter_flatMap, List.map_flatMap]
    rfl
  rw [survivors, census_branch, List.filter_cons, Entry.stays_branch, ← hcs]
  by_cases hforks : 2 ≤ cs.countP bears <;> simp [hforks]

/-- To take over a place changes no entry. -/
theorem census_inherit (n : Node α) (place : Header) : (n.inherit place).census = n.census := by
  rw [inherit]
  split <;> simp

end Node

/-- What does not depend on a node's size does not change when sizes are normalized. -/
theorem Forest.map_normalize {β : Type} {g : Node α → β} (hg : ∀ n s, g (n.withSize s) = g n)
    (cs : Forest α) : (Forest.normalize cs).map g = cs.map g := by
  -- there is a size for each child, so no child is cut off
  have h : ∀ (cs : Forest α) (sizes : List Float32), sizes.length = cs.length →
      (List.zipWith Node.withSize cs sizes).map g = cs.map g := by
    intro cs
    induction cs with
    | nil => simp
    | cons c cs ih =>
      intro sizes hlen
      cases sizes with
      | nil => simp at hlen
      | cons size sizes => simp [hg, ih sizes (by simpa using hlen)]
  exact h _ _ (by simp)

/-- Normalizing shares changes nothing that does not depend on shares. -/
theorem Forest.flatMap_normalize {β : Type} {g : Node α → List β}
    (hg : ∀ n s, g (n.withSize s) = g n) (cs : Forest α) :
    (Forest.normalize cs).flatMap g = cs.flatMap g := by
  rw [List.flatMap_def, Forest.map_normalize hg, ← List.flatMap_def]

theorem Forest.forall_mem_normalize {p : Node α → Prop} (hp : ∀ n s, p (n.withSize s) = p n)
    (cs : Forest α) : (∀ c ∈ Forest.normalize cs, p c) ↔ ∀ c ∈ cs, p c := by
  have hmap := Forest.map_normalize hp cs
  constructor
  · intro h c hc
    obtain ⟨c', hc', heq⟩ := List.mem_map.mp (hmap ▸ List.mem_map_of_mem hc)
    exact heq ▸ h c' hc'
  · intro h c hc
    obtain ⟨c', hc', heq⟩ := List.mem_map.mp (hmap ▸ List.mem_map_of_mem hc)
    exact heq ▸ h c' hc'

@[simp] theorem Forest.length_normalize (cs : Forest α) :
    (Forest.normalize cs).length = cs.length := by
  simp [Forest.normalize]

namespace Node

theorem prune?_branch (h : Header) (cs : Forest α) :
    (branch h cs).prune? =
      match cs.filterMap prune? with
      | [] => none
      | [only] => some (only.inherit h)
      | kept => some (branch h (Forest.normalize kept)) := by
  rw [prune?, Forest.prune_eq_filterMap]
  rfl

/-- Two children that are kept stay side by side, with new sizes. -/
theorem prune?_pair {h : Header} {a b a' b' : Node α} (ha : a.prune? = some a')
    (hb : b.prune? = some b') :
    ∃ u v, (branch h [a, b]).prune? = some (branch h [a'.withSize u, b'.withSize v]) := by
  have hkept : [a, b].filterMap prune? = [a', b'] := by simp [ha, hb]
  have hlength : (Share.normalize ([a', b'].map Node.size)).length = 2 := by simp
  rw [prune?_branch, hkept]
  show ∃ u v, some (branch h (List.zipWith withSize [a', b'] _)) = _
  obtain ⟨u, v, hsizes⟩ := List.length_eq_two.mp hlength
  exact ⟨u, v, by rw [hsizes]; rfl⟩

/-- What is read off the children that are kept, one after the other. -/
theorem flatMap_filterMap_prune? {β : Type} {f g : Node α → List β} {cs : Forest α}
    (h : ∀ c ∈ cs, c.prune?.toList.flatMap f = g c) :
    (cs.filterMap prune?).flatMap f = cs.flatMap g := by
  rw [List.filterMap_eq_flatMap_toList, List.flatMap_assoc]
  exact List.flatMap_congr h

theorem length_filterMap_prune? {cs : Forest α} (h : ∀ c ∈ cs, c.prune?.isSome = c.bears) :
    (cs.filterMap prune?).length = cs.countP bears := by
  rw [List.length_filterMap_eq_countP]
  exact List.countP_congr fun c hc => by rw [h c hc]

/-- Balancing keeps the nodes that the census says, in their order, and drops a tree without
leaves. -/
theorem prune?_census (n : Node α) :
    n.prune?.isSome = n.bears ∧ n.prune?.toList.flatMap ids = n.survivors := by
  induction n with
  | leaf h d => simp [prune?, survivors, List.filter_cons]
  | branch h cs ih =>
    -- the children that are kept: their identifiers, and their number
    have hids := flatMap_filterMap_prune? fun c hc => (ih c hc).2
    have hlength := length_filterMap_prune? fun c hc => (ih c hc).1
    have hbears : (branch h cs).bears = decide (0 < cs.countP bears) := by
      rw [Bool.eq_iff_iff, bears_branch_iff, decide_eq_true_iff]
    rw [prune?_branch, survivors_branch, hbears, ← hlength, ← hids]
    -- nothing remains of the branch, or the one child in its place, or the branch
    match cs.filterMap prune? with
    | [] => simp
    | [only] => simp [← map_id_census, census_inherit]
    | k :: k' :: ks => simp [Forest.flatMap_normalize ids_withSize]

/-- Just the subtrees without leaves are pruned away. -/
theorem prune?_eq_none (n : Node α) : n.prune? = none ↔ n.bears = false := by
  rw [← (prune?_census n).1, Option.isSome_eq_false_iff, Option.isNone_iff_eq_none]

/-- Pruning leaves the survivors, in their order. -/
theorem ids_of_prune? {m n : Node α} (h : n.prune? = some m) : m.ids = n.survivors := by
  simpa [h] using (prune?_census n).2

/-- Just the trees without leaves balance to nothing. -/
theorem balance?_eq_none (n : Node α) : n.balance? = none ↔ n.bears = false := by
  rw [balance?, Option.map_eq_none_iff, prune?_eq_none]

/-- Balancing leaves the survivors, in their order. -/
theorem ids_of_balance? {m n : Node α} (h : n.balance? = some m) : m.ids = n.survivors := by
  obtain ⟨k, hk, rfl⟩ := Option.map_eq_some_iff.mp h
  rw [ids_orient, ids_of_prune? hk]

theorem mem_survivors {id : NodeId} {n : Node α} :
    id ∈ n.survivors ↔ ∃ e ∈ n.census, e.stays ∧ e.id = id := by
  simp [survivors, and_assoc]

end Node

/-! ## 3. An edit at one place -/

namespace Context

/-- The entries around a hole that takes a node with leaves. -/
def census : Context α → List Entry
  | [] => []
  | f :: c =>
      ⟨f.header.id, some ((f.before ++ f.after).countP Node.bears + 1)⟩ ::
        (f.before.flatMap Node.census ++ census c ++ f.after.flatMap Node.census)

theorem bears_plug {c : Context α} {m : Node α} (hm : m.bears) : (plug c m).bears := by
  induction c with
  | nil => exact hm
  | cons f c ih => simp [Frame.fill, ih]

/-- The entries of a tree are those of a subtree and those around it. -/
theorem census_plug {c : Context α} {m : Node α} (hm : m.bears) :
    (plug c m).census ~ census c ++ m.census := by
  induction c with
  | nil => exact .refl _
  | cons f c ih =>
    rw [plug_cons, Frame.fill, Node.census_branch, Node.countP_bears_child (bears_plug hm), census,
      List.cons_append]
    refine .cons _ ?_
    rw [List.flatMap_append, List.flatMap_cons, List.append_assoc, List.append_assoc]
    refine .append_left _ ?_
    -- the entries of the hole go behind those after it
    calc (plug c m).census ++ f.after.flatMap Node.census
      _ ~ census c ++ m.census ++ f.after.flatMap Node.census := ih.append_right _
      _ ~ census c ++ (f.after.flatMap Node.census ++ m.census) := by
        rw [List.append_assoc]
        exact List.perm_append_comm.append_left _

/-- Nodes with one census fill a hole alike. -/
theorem census_plug_congr {m k : Node α} (hcensus : m.census = k.census)
    (hbears : m.bears = k.bears) (c : Context α) :
    (plug c m).census = (plug c k).census ∧ (plug c m).bears = (plug c k).bears := by
  induction c with
  | nil => exact ⟨hcensus, hbears⟩
  | cons f c ih => simp [Frame.fill, List.countP_append, List.countP_cons, ih.1, ih.2]

end Context

end Tiling
