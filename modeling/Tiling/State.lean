import Tiling.Action
import Tiling.Config
import Tiling.IdSupply
import Tiling.Layout
import Tiling.Node.Balance
import Tiling.Node.Lookup

/-!
# States

A tree of panes with its leaves, its focus, its magnified node and the action staged for it. The
generation counts the changes.
-/

namespace Tiling

structure State (α : Type) where
  root : Option (Node α) := none
  /-- The leaves of the tree as they were after the last change. -/
  leaves : List (Node α) := []
  staged : Option (Action α) := none
  generation : UInt64 := 0
  focused : Option NodeId := none
  magnified : Option NodeId := none
  ids : IdSupply := {}
  config : Config := {}
deriving BEq

variable {α : Type}

namespace State

def leavesOf (root : Option (Node α)) : List (Node α) :=
  root.elim [] Node.leaves

def empty : State α := {}

def ofRoot (root : Node α) : State α :=
  let balanced := root.balance?
  { root := balanced, leaves := leavesOf balanced, ids := ({} : IdSupply).reserveAll root.ids }

def mintId (s : State α) : NodeId × State α :=
  let (id, ids) := s.ids.mint
  (id, { s with ids })

def newLeaf (s : State α) (datum : α) : Node α × State α :=
  -- The leaf is not in the tree yet.
  let (id, s) := s.mintId
  (.leaf { id } datum, s)

def layout (s : State α) (bounds : Rect) : List (NodeId × Rect) :=
  -- A magnified node that is in the tree gets all of `bounds`.
  match s.root with
  | none => []
  | some root => ((s.magnified.bind root.find?).getD root).layout bounds

/-- Completes a change of the tree: balances it, reads off its leaves, drops the staged action, and
moves the focus to the first leaf and gives up the magnification if their nodes are gone. -/
def settle (s : State α) : State α :=
  let root := s.root.bind Node.balance?
  let leaves := leavesOf root
  let alive (id : NodeId) := root.any (·.contains id)
  { s with
    root, leaves
    staged := none
    focused := s.focused.bind fun id => if alive id then some id else leaves.head?.map Node.id
    magnified := s.magnified.filter alive
    generation := s.generation + 1 }

end State

end Tiling
