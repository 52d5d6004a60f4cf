import Tiling.State.Step

/-!
# Performing actions in place

The same actions as a sequence of checks and writes to one state. Each write takes effect at once,
so a rejection that comes after a write leaves that write behind: here it has to be shown, and not
only read off, that a rejected action changes nothing.
-/

namespace Tiling

variable {α : Type}

/-- Work on a state. A rejection comes with the state as the work has left it. -/
abbrev InPlace (α β : Type) := EStateM Rejection (State α) β

namespace InPlace

def check {β : Type} : Except Rejection β → InPlace α β
  | .ok b => pure b
  | .error r => throw r

def tree : InPlace α (Node α) := do
  check (← get).rootOf

def setRoot (root : Option (Node α)) : InPlace α Unit :=
  modify fun s => { s with root }

def reserve (ids : List NodeId) : InPlace α Unit :=
  modify fun s => { s with ids := s.ids.reserveAll ids }

def mint : InPlace α NodeId :=
  modifyGet State.mintId

def adopt (n : Node α) (index : Nat) (child : Node α) : InPlace α (Node α) := do
  if n.isLeaf then
    let id ← mint
    return (n.wrap id n.orientation).graft index child
  else return n.graft index child

def place (goal : Goal) (index : Nat) (child : Node α) : InPlace α Unit := do
  -- By now a parent that is not in the tree is found too late.
  let root ← tree
  match goal with
  | .besideRoot =>
      let id ← mint
      let wrapped := root.wrap id root.orientation.reverse
      setRoot wrapped
      setRoot (← adopt wrapped index child)
  | .under parent =>
      match root.find? parent with
      | none => throw (.notFound parent)
      | some target =>
          let target ← adopt target index child
          setRoot ((root.update? parent fun _ => target).getD root)

def plant (node : Node α) : InPlace α Unit := do
  reserve node.ids
  setRoot node

def moveWithin (root : Node α) (goal : Goal) (index : Nat) (node : Node α) : InPlace α Unit := do
  let child ← check (root.moved node goal)
  let oldParent := (root.parent? node.id).map Node.id
  let start := root.staleStart node.id oldParent goal index
  reserve child.ids
  place goal index child
  let grafted ← tree
  setRoot (grafted.dropStale node.id oldParent start)

def move (parent : Option NodeId) (atRoot : Bool) (index : Nat) (node : Node α) :
    InPlace α Unit := do
  let goal ← check (Goal.of parent atRoot)
  match (← get).root, goal with
  | some root, goal => moveWithin root goal index node
  | none, .besideRoot => plant node
  | none, .under _ => throw .emptyTree

def insertInto (root node : Node α) : InPlace α Unit := do
  check (root.checkFresh node)
  match root.slot? (← get).config.maxChildren with
  | none => throw (.notFound root.id)
  | some slot =>
      reserve node.ids
      place (.under slot.node) slot.index node

def mark (shown : NodeId) (magnified focused : Bool) : InPlace α Unit := do
  if focused then modify fun s => { s with focused := some shown }
  if magnified then modify fun s => { s with magnified := some shown }

def insert (node : Node α) (magnified focused : Bool) : InPlace α Unit := do
  match (← get).root with
  | none => plant node
  | some root => insertInto root node
  mark (node.firstLeafId?.getD node.id) magnified focused

def delete (id : NodeId) : InPlace α Unit := do
  let root ← tree
  if root.id = id then setRoot none
  else
    match root.updateParent? id fun parent => parent.dropChild id 0 with
    | some tree => setRoot tree
    | none => throw (.notFound id)

def exchange (p q : Path) (first second : Node α) : InPlace α Unit := do
  let root ← tree
  setRoot (Node.setAt ((second.withSize first.size).orient first.orientation) p root)
  let halfway ← tree
  setRoot (Node.setAt ((first.withSize second.size).orient second.orientation) q halfway)

def swap (first second : NodeId) : InPlace α Unit := do
  let root ← tree
  if first = second then throw (.sameNode first)
  else if first = root.id || second = root.id then throw (.rootSwap root.id)
  else
    match root.path? first, root.path? second with
    | none, _ => throw (.notFound first)
    | some _, none => throw (.notFound second)
    | some p, some q =>
        if p.isPrefixOf q then throw (.inside second first)
        else if q.isPrefixOf p then throw (.inside first second)
        else
          match root.pairAt p q with
          | .ok (some (a, b)) => exchange p q a b
          | _ => throw (.notFound first)

def resizeOne (r : Resize) : InPlace α Unit := do
  let root ← tree
  setRoot (root.resized r)

def resize (shares : List Resize) : InPlace α Unit := do
  let root ← tree
  shares.forM fun r => check (root.checkResize r)
  shares.forM resizeOne

def countChange : InPlace α Unit :=
  modify fun s => { s with generation := s.generation + 1 }

def focus (id : NodeId) : InPlace α Unit := do
  let root ← tree
  if !root.contains id then throw (.notFound id)
  else if (← get).focused = some id then return
  else
    modify fun s => { s with focused := some id }
    countChange

def toggleMagnified (id : NodeId) : InPlace α Unit := do
  let root ← tree
  if !root.contains id then throw (.notFound id)
  else if (← get).magnified = some id then
    modify fun s => { s with magnified := none }
    countChange
  else
    modify fun s => { s with magnified := some id }
    modify fun s => { s with focused := some id }
    countChange

def settle : InPlace α Unit :=
  modify State.settle

def perform : Action α → InPlace α Unit
  | .stageDrop target moved zone => do
      let root ← tree
      let staged ← check (root.resolveDrop target moved zone)
      modify fun s => { s with staged }
  | .clearStaged => modify fun s => { s with staged := none }
  | .commitStaged => throw .nothingStaged
  | .move parent atRoot index node => do
      move parent atRoot index node
      settle
  | .insert node magnified focused => do
      insert node magnified focused
      settle
  | .delete id => do
      delete id
      settle
  | .swap first second => do
      swap first second
      settle
  | .focus id => focus id
  | .toggleMagnified id => toggleMagnified id
  | .resize shares => do
      resize shares
      settle

def step : Action α → InPlace α Unit
  -- To commit takes the staged action out of the state before it is performed.
  | .commitStaged => do
      match (← get).staged with
      | none => throw .nothingStaged
      | some staged =>
          modify fun s => { s with staged := none }
          perform staged
  | a => perform a

def answer : EStateM.Result Rejection (State α) Unit → State α × Option Rejection
  | .ok _ t => (t, none)
  | .error r t => (t, some r)

end InPlace

/-- The state as the writes of an action leave it, and why the action was rejected if it was. -/
def State.stepInPlace (s : State α) (a : Action α) : State α × Option Rejection :=
  InPlace.answer (InPlace.step a s)

end Tiling
