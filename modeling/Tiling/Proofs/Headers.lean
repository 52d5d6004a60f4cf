import Tiling.Proofs.Paths
import Mathlib.Logic.Function.Conjugate

/-!
# Changing the headers of a tree

A change of all headers that keeps the identifiers is not seen by what goes by identifiers and
positions: lookups, paths, slots and the order of the nodes. Such a change may forget a part of each
header, and then two trees that are changed into one differ in that part alone.
-/

namespace Tiling

variable {α : Type}

mutual

def Node.mapHeaders (f : Header → Header) : Node α → Node α
  -- `mapHeader` changes the top header alone.
  | .leaf h d => .leaf (f h) d
  | .branch h cs => .branch (f h) (Forest.mapHeaders f cs)

def Forest.mapHeaders (f : Header → Header) : Forest α → Forest α
  | [] => []
  | c :: cs => c.mapHeaders f :: Forest.mapHeaders f cs

end

variable {f : Header → Header}

theorem Forest.mapHeaders_eq_map (cs : Forest α) :
    Forest.mapHeaders f cs = cs.map (Node.mapHeaders f) := by
  induction cs with
  | nil => rfl
  | cons c cs ih => rw [Forest.mapHeaders, ih, List.map_cons]

/-! ## 1. Nodes and positions -/

namespace Node

@[simp] theorem mapHeaders_leaf (h : Header) (d : α) :
    (leaf h d).mapHeaders f = leaf (f h) d := rfl

@[simp] theorem mapHeaders_branch (h : Header) (cs : Forest α) :
    (branch h cs).mapHeaders f = branch (f h) (cs.map (mapHeaders f)) := by
  rw [mapHeaders, Forest.mapHeaders_eq_map]

@[simp] theorem header_mapHeaders (n : Node α) : (n.mapHeaders f).header = f n.header := by
  cases n <;> rfl

@[simp] theorem isLeaf_mapHeaders (n : Node α) : (n.mapHeaders f).isLeaf = n.isLeaf := by
  cases n <;> rfl

@[simp] theorem children_mapHeaders (n : Node α) :
    (n.mapHeaders f).children = n.children.map (mapHeaders f) := by
  cases n <;> simp

theorem mapHeaders_mapHeaders (f g : Header → Header) (n : Node α) :
    (n.mapHeaders f).mapHeaders g = n.mapHeaders (g ∘ f) := by
  induction n with
  | leaf h d => rfl
  | branch h cs ih =>
    simp only [mapHeaders_branch, List.map_map]
    exact congrArg _ (List.map_congr_left ih)

/-- A rewriting that fixes every header of a tree fixes the tree. -/
theorem mapHeaders_eq_self {n : Node α} (h : ∀ m ∈ n.nodes, f m.header = m.header) :
    n.mapHeaders f = n := by
  induction n with
  | leaf hd d => exact congrArg (leaf · d) (h _ (self_mem_nodes _))
  | branch hd cs ih =>
    rw [nodes_branch, List.forall_mem_cons, List.forall_mem_flatMap] at h
    have htop : f hd = hd := h.1
    rw [mapHeaders_branch, htop, List.map_congr_left fun c hc => ih c hc (h.2 c hc), List.map_id']

/-- Rewriting headers keeps the nodes in their order. -/
theorem nodes_mapHeaders (n : Node α) : (n.mapHeaders f).nodes = n.nodes.map (mapHeaders f) := by
  induction n with
  | leaf h d => simp
  | branch h cs ih =>
    simp only [mapHeaders_branch, nodes_branch, List.map_cons, List.flatMap_map, List.map_flatMap]
    exact congrArg _ (List.flatMap_congr ih)

theorem leaves_mapHeaders (n : Node α) :
    (n.mapHeaders f).leaves = n.leaves.map (mapHeaders f) := by
  rw [leaves, leaves, nodes_mapHeaders, List.filter_map]
  exact congrArg _ (List.filter_congr fun m _ => isLeaf_mapHeaders m)

theorem at?_mapHeaders (n : Node α) (p : Path) :
    (n.mapHeaders f).at? p = (n.at? p).map (mapHeaders f) := by
  induction p generalizing n with
  | nil => rfl
  | cons i p ih =>
    rw [at?_cons, at?_cons, children_mapHeaders, List.getElem?_map]
    cases n.children[i]? with
    | none => rfl
    | some c => exact ih c

theorem pairAt_mapHeaders (n : Node α) (p q : Path) :
    (n.mapHeaders f).pairAt p q =
      (n.pairAt p q).map (Option.map (Prod.map (mapHeaders f) (mapHeaders f))) := by
  induction p generalizing n q with
  | nil => rfl
  | cons i p ih =>
    cases q with
    | nil => rfl
    | cons j q =>
      rw [pairAt, pairAt, children_mapHeaders, isLeaf_mapHeaders, List.length_map,
        List.getElem?_map, List.getElem?_map]
      split
      · cases n.children[i]? with
        | none => rfl
        | some c => exact ih c q
      split
      · rfl
      split
      · rfl
      · -- past the fork the two nodes are found one by one
        cases n.children[i]? with
        | none => rfl
        | some c =>
          cases n.children[j]? with
          | none => cases hc : c.at? p <;> simp [Except.map]
          | some e =>
            cases hc : c.at? p <;> cases he : e.at? q <;>
              simp [at?_mapHeaders, hc, he, Except.map]

/-- Rewriting headers and replacing a subtree may be done in either order. -/
theorem setAt_mapHeaders (new : Node α) (p : Path) (n : Node α) :
    setAt (new.mapHeaders f) p (n.mapHeaders f) = (setAt new p n).mapHeaders f := by
  induction p generalizing n with
  | nil => rfl
  | cons i p ih =>
    cases n with
    | leaf h d => rfl
    | branch h cs =>
      rw [mapHeaders_branch, setAt, setAt, mapHeaders_branch]
      congr 1
      refine List.ext_getElem? fun k => ?_
      simp only [List.getElem?_modify, List.getElem?_map, Option.map_eq_map, Option.map_map]
      refine congrArg (Option.map · cs[k]?) (funext fun c => ?_)
      simp only [Function.comp_apply]
      split
      · exact ih c
      · rfl

end Node

mutual

theorem Node.height_mapHeaders : ∀ n : Node α, (n.mapHeaders f).height = n.height
  | .leaf _ _ => rfl
  | .branch h cs => by
    rw [Node.mapHeaders, Node.height, Node.height, Forest.height_mapHeaders cs]

theorem Forest.height_mapHeaders : ∀ cs : Forest α,
    Forest.height (Forest.mapHeaders f cs) = Forest.height cs
  | [] => rfl
  | c :: cs => by
    rw [Forest.mapHeaders, Forest.height, Forest.height, Node.height_mapHeaders c,
      Forest.height_mapHeaders cs]

end

/-- The levels of a forest are rewritten one by one. -/
theorem Forest.levels_mapHeaders (depth : Nat) (level : Forest α) :
    Forest.levels depth (level.map (Node.mapHeaders f)) =
      (Forest.levels depth level).map (Node.mapHeaders f) := by
  induction depth generalizing level with
  | zero => rfl
  | succ depth ih =>
    have hnext : Forest.nextLevel (level.map (Node.mapHeaders f)) =
        (Forest.nextLevel level).map (Node.mapHeaders f) := by
      simp [Forest.nextLevel, List.flatMap_map, List.map_flatMap, ← List.map_reverse]
    rw [Forest.levels, hnext, ih, Forest.levels, List.map_append]

/-! ## 2. Lookups by identifier -/

namespace Node

section

variable (hf : ∀ h, (f h).id = h.id)

include hf

theorem id_mapHeaders (n : Node α) : (n.mapHeaders f).id = n.id := by
  rw [id, header_mapHeaders, hf, id]

theorem ids_mapHeaders (n : Node α) : (n.mapHeaders f).ids = n.ids := by
  rw [ids, ids, nodes_mapHeaders, List.map_map]
  exact List.map_congr_left fun m _ => id_mapHeaders hf m

theorem leafIds_mapHeaders (n : Node α) : (n.mapHeaders f).leafIds = n.leafIds := by
  rw [leafIds, leafIds, leaves_mapHeaders, List.map_map]
  exact List.map_congr_left fun m _ => id_mapHeaders hf m

theorem firstLeafId?_mapHeaders (n : Node α) : (n.mapHeaders f).firstLeafId? = n.firstLeafId? := by
  rw [firstLeafId?, leafIds_mapHeaders hf, firstLeafId?]

/-- The first free slot depends on the ids and the children only. -/
theorem slot?_mapHeaders (n : Node α) (capacity : Nat) :
    (n.mapHeaders f).slot? capacity = n.slot? capacity := by
  have hlevels : (n.mapHeaders f).levelOrder = n.levelOrder.map (mapHeaders f) := by
    rw [levelOrder, height_mapHeaders, levelOrder]
    exact Forest.levels_mapHeaders _ [n]
  have hroom : roomFor? capacity ∘ mapHeaders f = roomFor? (α := α) capacity := by
    funext m
    cases m with
    | leaf h d => rfl
    | branch h cs => simp [roomFor?, hf]
  have hsplit : splitOf? ∘ mapHeaders f = splitOf? (α := α) := by
    funext m
    cases m with
    | leaf h d => simp [splitOf?, hf]
    | branch h cs => rfl
  rw [slot?, hlevels, List.findSome?_map, List.findSome?_map, hroom, hsplit, slot?]

end

end Node

theorem Forest.index?_mapHeaders (hf : ∀ h, (f h).id = h.id) (id : NodeId) (cs : Forest α) :
    Forest.index? id (Forest.mapHeaders f cs) = Forest.index? id cs := by
  have hid : (fun c : Node α => decide (c.id = id)) ∘ Node.mapHeaders f =
      fun c => decide (c.id = id) :=
    funext fun c => by rw [Function.comp_apply, Node.id_mapHeaders hf]
  rw [Forest.mapHeaders_eq_map, Forest.index?, List.findIdx?_map, hid, Forest.index?]

mutual

/-- A rewriting that keeps ids leaves every search with the same node, rewritten. -/
theorem Node.find?_mapHeaders (hf : ∀ h, (f h).id = h.id) (id : NodeId) : ∀ n : Node α,
    (n.mapHeaders f).find? id = (n.find? id).map (Node.mapHeaders f)
  | .leaf h d => by
    rw [Node.mapHeaders, Node.find?, Node.find?, hf]
    split <;> rfl
  | .branch h cs => by
    rw [Node.mapHeaders, Node.find?, Node.find?, hf, Forest.find?_mapHeaders hf id cs]
    split <;> rfl

theorem Forest.find?_mapHeaders (hf : ∀ h, (f h).id = h.id) (id : NodeId) : ∀ cs : Forest α,
    Forest.find? id (Forest.mapHeaders f cs) = (Forest.find? id cs).map (Node.mapHeaders f)
  | [] => rfl
  | c :: cs => by
    rw [Forest.mapHeaders, Forest.find?, Forest.find?, Node.find?_mapHeaders hf id c,
      Forest.find?_mapHeaders hf id cs]
    cases c.find? id <;> rfl

end

theorem Node.contains_mapHeaders (hf : ∀ h, (f h).id = h.id) (id : NodeId) (n : Node α) :
    (n.mapHeaders f).contains id = n.contains id := by
  rw [Node.contains, Node.find?_mapHeaders hf, Option.isSome_map, Node.contains]

mutual

theorem Node.parent?_mapHeaders (hf : ∀ h, (f h).id = h.id) (id : NodeId) : ∀ n : Node α,
    (n.mapHeaders f).parent? id = (n.parent? id).map (Node.mapHeaders f)
  | .leaf h d => rfl
  | .branch h cs => by
    rw [Node.mapHeaders, Node.parent?, Node.parent?, hf, Forest.index?_mapHeaders hf,
      Forest.parent?_mapHeaders hf id cs]
    split
    · rfl
    · split <;> rfl

theorem Forest.parent?_mapHeaders (hf : ∀ h, (f h).id = h.id) (id : NodeId) : ∀ cs : Forest α,
    Forest.parent? id (Forest.mapHeaders f cs) = (Forest.parent? id cs).map (Node.mapHeaders f)
  | [] => rfl
  | c :: cs => by
    rw [Forest.mapHeaders, Forest.parent?, Forest.parent?, Node.parent?_mapHeaders hf id c,
      Forest.parent?_mapHeaders hf id cs]
    cases c.parent? id <;> rfl

end

mutual

theorem Node.path?_mapHeaders (hf : ∀ h, (f h).id = h.id) (id : NodeId) : ∀ n : Node α,
    (n.mapHeaders f).path? id = n.path? id
  | .leaf h d => by rw [Node.mapHeaders, Node.path?, Node.path?, hf]
  | .branch h cs => by
    rw [Node.mapHeaders, Node.path?, Node.path?, hf, Forest.path?_mapHeaders hf id cs]

theorem Forest.path?_mapHeaders (hf : ∀ h, (f h).id = h.id) (id : NodeId) :
    ∀ (cs : Forest α) {i : Nat},
    Forest.path? id i (Forest.mapHeaders f cs) = Forest.path? id i cs
  | [], _ => rfl
  | c :: cs, i => by
    rw [Forest.mapHeaders, Forest.path?, Forest.path?, Node.path?_mapHeaders hf id c,
      Forest.path?_mapHeaders hf id cs]

end

/-! ## 3. Edits at one place -/

variable {g k : Node α → Node α}

mutual

/-- An edit whose effect up to the change of headers is `k`. -/
theorem Node.update?_mapHeaders (hf : ∀ h, (f h).id = h.id)
    (hg : Function.Semiconj (Node.mapHeaders f) g k) (id : NodeId) : ∀ n : Node α,
    (n.update? id g).map (Node.mapHeaders f) = (n.mapHeaders f).update? id k
  | .leaf h d => by
    rw [Node.mapHeaders, Node.update?, Node.update?, hf]
    split
    · exact congrArg some (hg _)
    · rfl
  | .branch h cs => by
    rw [Node.mapHeaders, Node.update?, Node.update?, hf, ← Forest.update?_mapHeaders hf hg id cs]
    split
    · exact congrArg some (hg _)
    · rw [Option.map_map, Option.map_map]
      rfl

theorem Forest.update?_mapHeaders (hf : ∀ h, (f h).id = h.id)
    (hg : Function.Semiconj (Node.mapHeaders f) g k) (id : NodeId) : ∀ cs : Forest α,
    (Forest.update? id g cs).map (Forest.mapHeaders f) =
      Forest.update? id k (Forest.mapHeaders f cs)
  | [] => rfl
  | c :: cs => by
    rw [Forest.mapHeaders, Forest.update?, Forest.update?, ← Node.update?_mapHeaders hf hg id c,
      ← Forest.update?_mapHeaders hf hg id cs]
    cases c.update? id g with
    | some c' => rfl
    | none =>
      simp only [Option.map_none, Option.map_map]
      rfl

end

mutual

/-- Updates that agree up to the rewriting still do after it. -/
theorem Node.updateParent?_mapHeaders (hf : ∀ h, (f h).id = h.id)
    (hg : Function.Semiconj (Node.mapHeaders f) g k) (id : NodeId) : ∀ n : Node α,
    (n.updateParent? id g).map (Node.mapHeaders f) = (n.mapHeaders f).updateParent? id k
  | .leaf h d => rfl
  | .branch h cs => by
    rw [Node.mapHeaders, Node.updateParent?, Node.updateParent?, hf, Forest.index?_mapHeaders hf,
      ← Forest.updateParent?_mapHeaders hf hg id cs]
    split
    · rfl
    split
    · exact congrArg some (hg _)
    · rw [Option.map_map, Option.map_map]
      rfl

theorem Forest.updateParent?_mapHeaders (hf : ∀ h, (f h).id = h.id)
    (hg : Function.Semiconj (Node.mapHeaders f) g k) (id : NodeId) : ∀ cs : Forest α,
    (Forest.updateParent? id g cs).map (Forest.mapHeaders f) =
      Forest.updateParent? id k (Forest.mapHeaders f cs)
  | [] => rfl
  | c :: cs => by
    rw [Forest.mapHeaders, Forest.updateParent?, Forest.updateParent?,
      ← Node.updateParent?_mapHeaders hf hg id c, ← Forest.updateParent?_mapHeaders hf hg id cs]
    cases c.updateParent? id g with
    | some c' => rfl
    | none =>
      simp only [Option.map_none, Option.map_map]
      rfl

end

end Tiling
