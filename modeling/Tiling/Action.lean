import Tiling.DropZone
import Tiling.Node

/-!
# Actions

What a host can ask of a tree.
-/

namespace Tiling

/-- A new share for one node. -/
structure Resize where
  node : NodeId
  size : Float32
deriving BEq, DecidableEq

inductive Action (α : Type) where
  /-- Works out where a drop of `moved` onto `target` goes, and stages that move or swap. -/
  | stageDrop (target moved : NodeId) (zone : DropZone)
  /-- Forgets the staged action. -/
  | clearStaged
  /-- Performs the staged action. -/
  | commitStaged
  /-- Grafts `node` under `parent`, or beside the whole tree with `atRoot`. A node that is in the
  tree already leaves its old place. -/
  | move (parent : Option NodeId) (atRoot : Bool) (index : Nat) (node : Node α)
  /-- Puts a new node into the next free slot. -/
  | insert (node : Node α) (magnified focused : Bool)
  /-- Removes a node and all below it. -/
  | delete (id : NodeId)
  /-- Exchanges the places of two nodes. -/
  | swap (first second : NodeId)
  | focus (id : NodeId)
  | toggleMagnified (id : NodeId)
  | resize (shares : List Resize)
deriving BEq

end Tiling
