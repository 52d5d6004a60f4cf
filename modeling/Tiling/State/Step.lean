import Tiling.Node.Path
import Tiling.Placement
import Tiling.State.Move

/-!
# Performing actions

`step` performs one action. An action is performed completely or rejected, and a rejected action
changes nothing, except that to commit a staged action uses it up in any case.
-/

namespace Tiling

variable {α : Type}

namespace Node

/-- Exchanges the nodes at two paths, but each place keeps its share and its orientation. -/
def swapAt (root : Node α) (p q : Path) (first second : Node α) : Node α :=
  let atFirst := (second.withSize first.size).orient first.orientation
  let atSecond := (first.withSize second.size).orient second.orientation
  setAt atSecond q (setAt atFirst p root)

def resized (root : Node α) (r : Resize) : Node α :=
  (root.update? r.node fun n => n.withSize r.size).getD root

def checkResize (root : Node α) (r : Resize) : Except Rejection Unit :=
  if !Share.usable r.size then .error (.unusableSize r.node r.size)
  else if root.contains r.node then .ok ()
  else .error (.notFound r.node)

end Node

namespace State

def rootOf (s : State α) : Except Rejection (Node α) :=
  match s.root with
  | some root => .ok root
  | none => .error .emptyTree

def stageDrop (s : State α) (target moved : NodeId) (zone : DropZone) :
    Except Rejection (State α) := do
  let root ← s.rootOf
  let staged ← root.resolveDrop target moved zone
  return { s with staged }

def delete (s : State α) (id : NodeId) : Except Rejection (State α) := do
  let root ← s.rootOf
  if root.id = id then return { s with root := none }
  else
    match root.updateParent? id fun parent => parent.dropChild id 0 with
    | some tree => return { s with root := some tree }
    | none => throw (.notFound id)

def swap (s : State α) (first second : NodeId) : Except Rejection (State α) := do
  let root ← s.rootOf
  if first = second then throw (.sameNode first)
  else if first = root.id || second = root.id then throw (.rootSwap root.id)
  else
    match root.path? first, root.path? second with
    | none, _ => throw (.notFound first)
    | some _, none => throw (.notFound second)
    | some p, some q =>
        if p.isPrefixOf q then throw (.inside second first)
        else if q.isPrefixOf p then throw (.inside first second)
        else
          match root.pairAt p q with
          | .ok (some (a, b)) => return { s with root := some (root.swapAt p q a b) }
          | _ => throw (.notFound first)

def focus (s : State α) (id : NodeId) : Except Rejection (State α) := do
  -- Moving the focus counts as a change, setting it where it is does not.
  let root ← s.rootOf
  if !root.contains id then throw (.notFound id)
  else if s.focused = some id then return s
  else return { s with focused := some id, generation := s.generation + 1 }

def toggleMagnified (s : State α) (id : NodeId) : Except Rejection (State α) := do
  let root ← s.rootOf
  if !root.contains id then throw (.notFound id)
  else if s.magnified = some id then
    return { s with magnified := none, generation := s.generation + 1 }
  else
    return { s with magnified := some id, focused := some id, generation := s.generation + 1 }

def resize (s : State α) (shares : List Resize) : Except Rejection (State α) := do
  let root ← s.rootOf
  shares.forM root.checkResize
  return { s with root := some (shares.foldl Node.resized root) }

def perform (s : State α) : Action α → Except Rejection (State α)
  | .stageDrop target moved zone => s.stageDrop target moved zone
  | .clearStaged => .ok { s with staged := none }
  -- `step` has used up the staged action by now, so nothing is left for a further commit.
  | .commitStaged => .error .nothingStaged
  | .move parent atRoot index node => (s.move parent atRoot index node).map settle
  | .insert node magnified focused => (s.insert node magnified focused).map settle
  | .delete id => (s.delete id).map settle
  | .swap first second => (s.swap first second).map settle
  | .focus id => s.focus id
  | .toggleMagnified id => s.toggleMagnified id
  | .resize shares => (s.resize shares).map settle

def attempt (s : State α) (a : Action α) : State α × Option Rejection :=
  match s.perform a with
  | .ok s' => (s', none)
  | .error r => (s, some r)

def step (s : State α) : Action α → State α × Option Rejection
  | .commitStaged =>
      match s.staged with
      | none => (s, some .nothingStaged)
      | some staged => { s with staged := none }.attempt staged
  | a => s.attempt a

def apply (s : State α) (a : Action α) : State α :=
  (s.step a).1

end State

end Tiling
