import Tiling.Node

/-!
# The slot for a new leaf

A new leaf goes to the shallowest branch that has room, and of several at one depth to the last.
Where no branch has room, it goes beside the shallowest leaf, again the last of its depth.
-/

namespace Tiling

/-- Where to graft: the node that takes the child, and the child's index there. -/
structure Slot where
  node : NodeId
  index : Nat
deriving DecidableEq, Repr

variable {α : Type}

mutual

def Node.height : Node α → Nat
  | .leaf .. => 1
  | .branch _ cs => Forest.height cs + 1

def Forest.height : Forest α → Nat
  | [] => 0
  | c :: cs => max c.height (Forest.height cs)

end

def Forest.nextLevel (level : Forest α) : Forest α :=
  level.flatMap fun n => n.children.reverse

def Forest.levels : Nat → Forest α → List (Node α)
  | 0, _ => []
  | depth + 1, level => level ++ Forest.levels depth (Forest.nextLevel level)

namespace Node

/-- All nodes of the subtree, level by level, each level from last to first. -/
def levelOrder (n : Node α) : List (Node α) :=
  Forest.levels n.height [n]

def roomFor? (capacity : Nat) : Node α → Option Slot
  | leaf .. => none
  | branch h cs => if cs.length < capacity then some ⟨h.id, cs.length⟩ else none

def splitOf? : Node α → Option Slot
  | leaf h _ => some ⟨h.id, 1⟩
  | branch .. => none

def slot? (n : Node α) (capacity : Nat) : Option Slot :=
  match n.levelOrder.findSome? (roomFor? capacity) with
  | some slot => some slot
  | none => n.levelOrder.findSome? splitOf?

end Node

end Tiling
