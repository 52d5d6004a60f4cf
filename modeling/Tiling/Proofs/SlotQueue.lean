import Tiling.Node.Slot
import Tiling.Proofs.Tree

/-!
# The search for a slot with a queue

The search takes nodes from the front of a queue and puts their children at its end. The queue holds
what is left of one level and what is there of the next, so the nodes come off it level by level,
and the search finds the slot that is read off the levels.
-/

namespace Tiling

variable {α : Type}

/-! ## 1. The queue -/

theorem Forest.length_nodes_append (xs ys : Forest α) :
    (Forest.nodes (xs ++ ys)).length = (Forest.nodes xs).length + (Forest.nodes ys).length := by
  rw [nodes_eq_flatMap, nodes_eq_flatMap, nodes_eq_flatMap, List.flatMap_append, List.length_append]

theorem Forest.length_nodes_reverse (cs : Forest α) :
    (Forest.nodes cs.reverse).length = (Forest.nodes cs).length := by
  induction cs with
  | nil => rfl
  | cons c cs ih =>
    rw [List.reverse_cons, length_nodes_append, ih, nodes, nodes, nodes, List.append_nil,
      List.length_append, Nat.add_comm]

/-- To take a node off and put its children on leaves fewer nodes in and below the queue. -/
theorem Forest.length_nodes_advance (n : Node α) (queue : Forest α) :
    (Forest.nodes (queue ++ n.children.reverse)).length < (Forest.nodes (n :: queue)).length := by
  have hnode : (Forest.nodes n.children).length + 1 = n.nodes.length := by
    rw [n.nodes_eq_cons, nodes_eq_flatMap, List.length_cons]
  rw [length_nodes_append, length_nodes_reverse, nodes, List.length_append]
  omega

/-- Goes through the queue until a branch has room. `leaf` is the slot beside the first leaf that
came off the queue so far, and the answer where no branch has room. -/
def Forest.searchSlot (capacity : Nat) (leaf : Option Slot) : Forest α → Option Slot
  | [] => leaf
  | n :: queue =>
      match n.roomFor? capacity with
      | some slot => some slot
      | none => Forest.searchSlot capacity (leaf.or n.splitOf?) (queue ++ n.children.reverse)
termination_by queue => (Forest.nodes queue).length
decreasing_by exact Forest.length_nodes_advance n queue

def Node.searchSlot? (n : Node α) (capacity : Nat) : Option Slot :=
  Forest.searchSlot capacity none [n]

def Forest.drain : Forest α → List (Node α)
  | [] => []
  | n :: queue => n :: Forest.drain (queue ++ n.children.reverse)
termination_by queue => (Forest.nodes queue).length
decreasing_by exact Forest.length_nodes_advance n queue

theorem Forest.drain_nil : Forest.drain ([] : Forest α) = [] := by
  unfold drain
  rfl

/-- A queue is worked off from the front, and the children go to its back, the last one first. -/
theorem Forest.drain_cons (n : Node α) (queue : Forest α) :
    Forest.drain (n :: queue) = n :: Forest.drain (queue ++ n.children.reverse) := by
  conv_lhs => unfold drain

/-! ## 2. Level by level -/

/-- While the front part comes off, its children line up behind the rest. -/
theorem Forest.drain_append (front rest : Forest α) :
    Forest.drain (front ++ rest) = front ++ Forest.drain (rest ++ Forest.nextLevel front) := by
  induction front generalizing rest with
  | nil => rw [nextLevel, List.flatMap_nil, List.append_nil, List.nil_append, List.nil_append]
  | cons n front ih =>
    -- the children of `n` are part of the rest from now on
    rw [List.cons_append, drain_cons, List.append_assoc, ih, List.append_assoc, List.cons_append]
    rfl

theorem Forest.height_le_iff {cs : Forest α} {depth : Nat} :
    Forest.height cs ≤ depth ↔ ∀ c ∈ cs, c.height ≤ depth := by
  induction cs with
  | nil => simp [height]
  | cons c cs ih => rw [height, Nat.max_le, ih, List.forall_mem_cons]

theorem Node.height_eq (n : Node α) : n.height = Forest.height n.children + 1 := by
  cases n with
  | leaf h d => rfl
  | branch h cs => rfl

/-- One level down the forest is lower by one. -/
theorem Forest.height_nextLevel {level : Forest α} {depth : Nat}
    (h : Forest.height level ≤ depth + 1) : Forest.height (Forest.nextLevel level) ≤ depth := by
  rw [height_le_iff] at h ⊢
  intro c hc
  obtain ⟨n, hn, hcn⟩ := List.mem_flatMap.mp hc
  have hheight := h n hn
  rw [n.height_eq, Nat.add_le_add_iff_right, height_le_iff] at hheight
  exact hheight c (List.mem_reverse.mp hcn)

theorem Forest.eq_nil_of_height {level : Forest α} (h : Forest.height level ≤ 0) : level = [] := by
  cases level with
  | nil => rfl
  | cons n level =>
    rw [height, n.height_eq] at h
    omega

/-- Working off a queue goes through the forest level by level. -/
theorem Forest.drain_eq_levels {level : Forest α} {depth : Nat} (h : Forest.height level ≤ depth) :
    Forest.drain level = Forest.levels depth level := by
  induction depth generalizing level with
  | zero => rw [eq_nil_of_height h, drain_nil, levels]
  | succ depth ih =>
    -- the queue is one level here, and the next one when that is drained
    have hlevel := drain_append level []
    rw [List.append_nil, List.nil_append] at hlevel
    rw [hlevel, levels, ih (height_nextLevel h)]

/-! ## 3. What the queue finds -/

/-- The search in one pass finds room anywhere before it settles for the first leaf. -/
theorem Forest.searchSlot_eq (capacity : Nat) (leaf : Option Slot) (queue : Forest α) :
    Forest.searchSlot capacity leaf queue =
      ((Forest.drain queue).findSome? (Node.roomFor? capacity)).or
        (leaf.or ((Forest.drain queue).findSome? Node.splitOf?)) := by
  induction queue using Forest.drain.induct generalizing leaf with
  | case1 =>
    unfold searchSlot
    rw [drain_nil, List.findSome?_nil, List.findSome?_nil, Option.or_none, Option.none_or]
  | case2 n queue ih =>
    unfold searchSlot
    rw [drain_cons, List.findSome?_cons, List.findSome?_cons]
    cases hroom : n.roomFor? capacity with
    | some slot => rfl
    | none =>
      show searchSlot capacity (leaf.or n.splitOf?) (queue ++ n.children.reverse) = _
      rw [ih, Option.or_assoc]
      cases n.splitOf? <;> rfl

/-- The queue finds the slot that is read off the levels. -/
theorem Node.searchSlot?_eq (n : Node α) (capacity : Nat) :
    n.searchSlot? capacity = n.slot? capacity := by
  have hheight : Forest.height [n] ≤ n.height := by
    simp [Forest.height]
  unfold searchSlot? slot? levelOrder
  rw [Forest.searchSlot_eq, Forest.drain_eq_levels hheight, Option.none_or]
  cases (Forest.levels n.height [n]).findSome? (roomFor? capacity) <;> rfl

end Tiling
