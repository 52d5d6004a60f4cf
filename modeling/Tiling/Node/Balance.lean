import Tiling.Node

/-!
# Balancing a tree

A balanced tree has at least two children in each branch, orientations that alternate from level to
level, and normalized shares in each sibling group. `balance` makes a tree balanced and keeps its
leaves in their order.
-/

namespace Tiling

variable {α : Type}

namespace Node

/-- The node in the place of a branch that it alone is left of: it takes over the branch's share,
and a leaf takes over its orientation. -/
def inherit (n : Node α) (place : Header) : Node α :=
  let n := n.withSize place.size
  if n.isLeaf then n.withOrientation place.orientation else n

end Node

def Forest.normalize (forest : Forest α) : Forest α :=
  List.zipWith Node.withSize forest (Share.normalize (forest.map Node.size))

@[simp] theorem Forest.map_id_normalize (forest : Forest α) :
    (Forest.normalize forest).map Node.id = forest.map Node.id := by
  have h : ∀ (cs : List (Node α)) (sizes : List Float32), sizes.length = cs.length →
      (List.zipWith Node.withSize cs sizes).map Node.id = cs.map Node.id := by
    intro cs
    induction cs with
    | nil => simp
    | cons c cs ih =>
      intro sizes hlen
      cases sizes with
      | nil => simp at hlen
      | cons size sizes => simp [ih sizes (by simpa using hlen)]
  exact h _ _ (by simp)

mutual

/-- Drops the branches without leaves and lets an only child take its parent's place. -/
def Node.prune? : Node α → Option (Node α)
  | .leaf h d => some (.leaf h d)
  | .branch h cs =>
      match Forest.prune cs with
      | [] => none
      | [only] => some (only.inherit h)
      | kept => some (.branch h (Forest.normalize kept))

def Forest.prune : Forest α → Forest α
  | [] => []
  | c :: cs =>
      match c.prune? with
      | some c' => c' :: Forest.prune cs
      | none => Forest.prune cs

end

namespace Node

def balance? (n : Node α) : Option (Node α) :=
  n.prune?.map fun root => root.orient root.orientation

end Node

end Tiling
