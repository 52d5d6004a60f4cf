import Tiling.Node
import Tiling.IdSupply

/-!
# Editing a node's children

The edits leave a tree that may have empty branches, single children and shares that do not add up.
`Node.balance` puts that right after a batch of edits.
-/

namespace Tiling.Node

variable {α : Type}

/-- A new branch in the node's place, with the node as its only child. The branch takes over the
node's share and visibility. The node keeps its identifier; a leaf turns across the new branch. -/
def wrap (n : Node α) (id : NodeId) (orientation : Orientation) : Node α :=
  let inner := n.withSize Share.whole
  let inner := if inner.isLeaf then inner.withOrientation orientation.reverse else inner
  .branch { id, orientation, size := n.size, visible := n.visible } [inner]

def joining (n : Node α) (siblings : Forest α) : Node α :=
  -- A new member of a sibling group gets the mean of the shares that are there.
  if siblings.isEmpty then n else n.withSize (Share.mean (siblings.map size))

/-- Puts `child` at `index` among the children, or at their end where `index` lies beyond it. The
child's subtree is turned so that orientations alternate. A leaf has no place for children. -/
def graft (n : Node α) (index : Nat) (child : Node α) : Node α :=
  match n with
  | leaf h d => leaf h d
  | branch h cs =>
      let child := (child.orient h.orientation.reverse).joining cs
      branch h (cs.insertIdx (min index cs.length) child)

def adopt (n : Node α) (index : Nat) (child : Node α) (ids : IdSupply) : Node α × IdSupply :=
  -- A leaf is wrapped first, in a branch of its own orientation.
  if n.isLeaf then
    let (id, ids) := ids.mint
    ((n.wrap id n.orientation).graft index child, ids)
  else (n.graft index child, ids)

def dropChild? (n : Node α) (id : NodeId) (start : Nat) : Option (Node α × Node α) :=
  match n with
  | leaf .. => none
  | branch h cs => do
      let i := start + (← (cs.drop start).findIdx? fun c => c.id = id)
      let child ← cs[i]?
      return (child, branch h (cs.eraseIdx i))

def dropChild (n : Node α) (id : NodeId) (start : Nat) : Node α :=
  match n.dropChild? id start with
  | some (_, rest) => rest
  | none => n

end Tiling.Node
