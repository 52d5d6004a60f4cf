import Tiling.Node.Balance
import Tiling.Node.Lookup
import Mathlib.Data.List.Nodup

/-!
# Induction over trees

A claim about all nodes follows from the claim for leaves and the step from the children of a branch
to the branch. The functions on forests are the library's list functions, so that inside a branch
the lemmas on lists apply.
-/

namespace Tiling

variable {α : Type}

/-! ## 1. The induction principle -/

mutual

/-- To prove a property of every tree, prove it of the leaves and of a container whose children have
it. -/
theorem Node.induction {P : Node α → Prop} (leaf : ∀ h d, P (.leaf h d))
    (branch : ∀ h cs, (∀ c ∈ cs, P c) → P (.branch h cs)) : ∀ n, P n
  | .leaf h d => leaf h d
  | .branch h cs => branch h cs (Forest.induction leaf branch cs)

theorem Forest.induction {P : Node α → Prop} (leaf : ∀ h d, P (.leaf h d))
    (branch : ∀ h cs, (∀ c ∈ cs, P c) → P (.branch h cs)) : ∀ cs : Forest α, ∀ c ∈ cs, P c
  | [], _, hc => nomatch hc
  | c :: cs, m, hm => by
    rcases List.mem_cons.mp hm with heq | hm
    · exact heq ▸ Node.induction leaf branch c
    · exact Forest.induction leaf branch cs m hm

end

attribute [induction_eliminator] Node.induction

/-! ## 2. Forests as lists -/

theorem Forest.nodes_eq_flatMap (cs : Forest α) : Forest.nodes cs = cs.flatMap Node.nodes := by
  induction cs with
  | nil => rfl
  | cons c cs ih => rw [Forest.nodes, ih, List.flatMap_cons]

theorem Forest.orient_eq_map (o : Orientation) (cs : Forest α) :
    Forest.orient o cs = cs.map (Node.orient o) := by
  induction cs with
  | nil => rfl
  | cons c cs ih => rw [Forest.orient, ih, List.map_cons]

theorem Forest.prune_eq_filterMap (cs : Forest α) : Forest.prune cs = cs.filterMap Node.prune? := by
  induction cs with
  | nil => rfl
  | cons c cs ih =>
    rw [Forest.prune, ih]
    cases h : c.prune? <;> simp [h]

theorem Forest.find?_eq_findSome? (id : NodeId) (cs : Forest α) :
    Forest.find? id cs = cs.findSome? (Node.find? id) := by
  induction cs with
  | nil => rfl
  | cons c cs ih =>
    rw [Forest.find?, ih]
    cases h : c.find? id <;> simp [h]

theorem Forest.parent?_eq_findSome? (id : NodeId) (cs : Forest α) :
    Forest.parent? id cs = cs.findSome? (Node.parent? id) := by
  induction cs with
  | nil => rfl
  | cons c cs ih =>
    rw [Forest.parent?, ih]
    cases h : c.parent? id <;> simp [h]

/-! ## 3. The nodes of a subtree -/

namespace Node

@[simp] theorem nodes_leaf (h : Header) (d : α) : (leaf h d).nodes = [leaf h d] := by
  rw [nodes]

@[simp] theorem nodes_branch (h : Header) (cs : Forest α) :
    (branch h cs).nodes = branch h cs :: cs.flatMap nodes := by
  rw [nodes, Forest.nodes_eq_flatMap]

@[simp] theorem ids_leaf (h : Header) (d : α) : (leaf h d).ids = [h.id] := by
  rw [ids, nodes_leaf]
  rfl

@[simp] theorem ids_branch (h : Header) (cs : Forest α) :
    (branch h cs).ids = h.id :: cs.flatMap ids := by
  rw [ids, nodes_branch, List.map_cons, List.map_flatMap]
  rfl

theorem not_mem_ids_branch {id : NodeId} {h : Header} {cs : Forest α} :
    id ∉ (branch h cs).ids ↔ id ≠ h.id ∧ ∀ c ∈ cs, id ∉ c.ids := by
  simp

@[simp] theorem id_leaf (h : Header) (d : α) : (leaf h d).id = h.id := rfl

@[simp] theorem id_branch (h : Header) (cs : Forest α) : (branch h cs).id = h.id := rfl

@[simp] theorem children_leaf (h : Header) (d : α) : (leaf h d).children = [] := rfl

@[simp] theorem children_branch (h : Header) (cs : Forest α) : (branch h cs).children = cs := rfl

@[simp] theorem isLeaf_leaf (h : Header) (d : α) : (leaf h d).isLeaf = true := rfl

@[simp] theorem isLeaf_branch (h : Header) (cs : Forest α) : (branch h cs).isLeaf = false := rfl

/-- The nodes of a tree in pre-order: the root, then those below. -/
theorem nodes_eq_cons (n : Node α) : n.nodes = n :: n.children.flatMap nodes := by
  cases n <;> simp

theorem ids_eq_cons (n : Node α) : n.ids = n.id :: n.children.flatMap ids := by
  cases n <;> simp

theorem self_mem_nodes (n : Node α) : n ∈ n.nodes := by
  rw [nodes_eq_cons]
  exact List.mem_cons_self

theorem id_mem_ids (n : Node α) : n.id ∈ n.ids := by
  rw [ids_eq_cons]
  exact List.mem_cons_self

/-- The ids of a tree are those of its nodes. -/
theorem mem_ids {n : Node α} {id : NodeId} : id ∈ n.ids ↔ ∃ m ∈ n.nodes, m.id = id := by
  rw [ids, List.mem_map]

theorem id_mem_of_mem_nodes {m n : Node α} (h : m ∈ n.nodes) : m.id ∈ n.ids :=
  mem_ids.mpr ⟨m, h, rfl⟩

theorem mem_nodes_of_mem_children {c n : Node α} (h : c ∈ n.children) : c ∈ n.nodes := by
  rw [nodes_eq_cons]
  exact List.mem_cons_of_mem _ (List.mem_flatMap.mpr ⟨c, h, self_mem_nodes c⟩)

/-- The nodes below a node of the tree are nodes of the tree. -/
theorem mem_nodes_trans {k m n : Node α} (hk : k ∈ m.nodes) (hm : m ∈ n.nodes) : k ∈ n.nodes := by
  induction n with
  | leaf h d =>
    rw [nodes_leaf, List.mem_singleton] at hm
    rwa [hm] at hk
  | branch h cs ih =>
    rw [nodes_branch, List.mem_cons, List.mem_flatMap] at hm
    rcases hm with rfl | ⟨c, hc, hmc⟩
    · exact hk
    · rw [nodes_branch, List.mem_cons, List.mem_flatMap]
      exact .inr ⟨c, hc, ih c hc hmc⟩

theorem mem_ids_trans {id : NodeId} {m n : Node α} (hid : id ∈ m.ids) (hm : m ∈ n.nodes) :
    id ∈ n.ids := by
  obtain ⟨k, hk, rfl⟩ := mem_ids.mp hid
  exact id_mem_of_mem_nodes (mem_nodes_trans hk hm)

end Node

end Tiling
