import Tiling.Node

/-!
# Paths

A path leads from a node down to a descendant, one child index for each level. `path?` finds the
path to an identifier and `at?` follows a path. Two nodes can be exchanged when neither path is the
beginning of the other.
-/

namespace Tiling

abbrev Path := List Nat

variable {α : Type}

mutual

def Node.path? (id : NodeId) : Node α → Option Path
  | .leaf h _ => if h.id = id then some [] else none
  | .branch h cs => if h.id = id then some [] else Forest.path? id 0 cs

def Forest.path? (id : NodeId) (i : Nat) : Forest α → Option Path
  -- The first member of the forest has the index `i`.
  | [] => none
  | c :: cs =>
      match c.path? id with
      | some p => some (i :: p)
      | none => Forest.path? id (i + 1) cs

end

/-- Two paths part at a branch and one of them goes past the end of its children. -/
structure PathFault where
  index : Nat
  count : Nat
deriving DecidableEq, Repr

namespace Node

def at? (n : Node α) : Path → Option (Node α)
  | [] => some n
  | i :: p =>
      match n.children[i]? with
      | some c => c.at? p
      | none => none

def setAt (new : Node α) : Path → Node α → Node α
  | [], _ => new
  -- A path that leads nowhere changes nothing.
  | _ :: _, leaf h d => leaf h d
  | i :: p, branch h cs => branch h (cs.modify i (setAt new p))

/-- The nodes at two paths, neither of which is the beginning of the other. The larger of the two
indices at the branch where the paths part may be the number of children there, and then nothing is
found; one beyond that is a fault. -/
def pairAt (n : Node α) : Path → Path → Except PathFault (Option (Node α × Node α))
  | i :: p, j :: q =>
      if i = j then
        match n.children[i]? with
        | some c => c.pairAt p q
        | none => .ok none
      else if n.isLeaf then .ok none
      else if n.children.length < max i j then .error ⟨max i j, n.children.length⟩
      else
        .ok do
          let first ← (← n.children[i]?).at? p
          let second ← (← n.children[j]?).at? q
          return (first, second)
  | _, _ => .ok none

def exchange? (n : Node α) (p q : Path) : Except PathFault (Option (Node α)) :=
  return (← n.pairAt p q).map fun (first, second) => setAt first q (setAt second p n)

end Node

end Tiling
