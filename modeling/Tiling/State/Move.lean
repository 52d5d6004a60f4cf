import Tiling.Node.Edit
import Tiling.Node.Slot
import Tiling.Rejection
import Tiling.State

/-!
# Moving and inserting nodes

Everything is checked before the first edit. A node that is in the tree already is grafted a second
time, and then the old one is taken out.
-/

namespace Tiling

variable {α : Type}

/-- Where a move goes. -/
inductive Goal where
  | under (parent : NodeId)
  | besideRoot
deriving DecidableEq, Repr

namespace Goal

def of (parent : Option NodeId) (atRoot : Bool) : Except Rejection Goal :=
  match parent, atRoot with
  | some _, true => .error .twoGoals
  | none, false => .error .noGoal
  | some parent, false => .ok (.under parent)
  | none, true => .ok .besideRoot

def parent? : Goal → Option NodeId
  | under parent => some parent
  | besideRoot => none

end Goal

namespace Node

def checkFresh (root node : Node α) : Except Rejection Unit :=
  match node.ids.find? root.contains with
  | some id => .error (.duplicateId id)
  | none => .ok ()

def checkOutside (root moved : Node α) : Goal → Except Rejection Unit
  | .under parent => if moved.contains parent then .error (.inside parent moved.id) else .ok ()
  -- The root lies beside nothing.
  | .besideRoot => if moved.id = root.id then .error (.inside root.id moved.id) else .ok ()

def checkGoal (root : Node α) : Goal → Except Rejection Unit
  | .under parent => if root.contains parent then .ok () else .error (.notFound parent)
  | .besideRoot => .ok ()

/-- What a move grafts: the node of that identifier in the tree, or else the new node. -/
def moved (root node : Node α) (goal : Goal) : Except Rejection (Node α) := do
  match root.find? node.id with
  | some current =>
      root.checkOutside current goal
      root.checkGoal goal
      return current
  | none =>
      root.checkFresh node
      root.checkGoal goal
      return node

/-- Where to look for the old node after the new one has been put at `index`. Under the same parent
the old one lies behind the new one if it was at `index` or later. -/
def staleStart (root : Node α) (id : NodeId) (oldParent : Option NodeId) (goal : Goal)
    (index : Nat) : Nat :=
  if oldParent.isSome && oldParent = goal.parent? then
    let current := (oldParent.bind root.find?).bind (·.childIndex? id)
    if index ≤ current.getD 0 then index + 1 else 0
  else 0

def place (root : Node α) (goal : Goal) (index : Nat) (child : Node α) (ids : IdSupply) :
    Node α × IdSupply :=
  match goal with
  -- The root goes into a new branch across it to get a sibling.
  | .besideRoot =>
      let (id, ids) := ids.mint
      (root.wrap id root.orientation.reverse).adopt index child ids
  | .under parent =>
      match root.find? parent with
      | none => (root, ids)
      | some target =>
          let (target, ids) := target.adopt index child ids
          ((root.update? parent fun _ => target).getD root, ids)

def dropStale (root : Node α) (id : NodeId) (oldParent : Option NodeId) (start : Nat) : Node α :=
  match oldParent with
  | none => root
  | some parent => (root.update? parent fun n => n.dropChild id start).getD root

end Node

namespace State

def plant (s : State α) (node : Node α) : State α :=
  { s with root := some node, ids := s.ids.reserveAll node.ids }

def moveWithin (s : State α) (root : Node α) (goal : Goal) (index : Nat) (node : Node α) :
    Except Rejection (State α) := do
  let child ← root.moved node goal
  let oldParent := (root.parent? node.id).map Node.id
  let start := root.staleStart node.id oldParent goal index
  let (tree, ids) := root.place goal index child (s.ids.reserveAll child.ids)
  return { s with root := some (tree.dropStale node.id oldParent start), ids }

def move (s : State α) (parent : Option NodeId) (atRoot : Bool) (index : Nat) (node : Node α) :
    Except Rejection (State α) := do
  let goal ← Goal.of parent atRoot
  match s.root, goal with
  | some root, goal => s.moveWithin root goal index node
  | none, .besideRoot => return s.plant node
  | none, .under _ => throw .emptyTree

def insertInto (s : State α) (root node : Node α) : Except Rejection (State α) := do
  root.checkFresh node
  match root.slot? s.config.maxChildren with
  | none => throw (.notFound root.id)
  | some slot =>
      let (tree, ids) := root.place (.under slot.node) slot.index node (s.ids.reserveAll node.ids)
      return { s with root := some tree, ids }

def insert (s : State α) (node : Node α) (magnified focused : Bool) :
    Except Rejection (State α) := do
  -- The node that gets the focus or the magnification is the first leaf of what is inserted.
  let shown := node.firstLeafId?.getD node.id
  let s ← match s.root with
    | none => pure (s.plant node)
    | some root => s.insertInto root node
  return { s with
    focused := if focused then some shown else s.focused
    magnified := if magnified then some shown else s.magnified }

end State

end Tiling
