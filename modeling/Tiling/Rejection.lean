import Tiling.Decimal.Shortest
import Tiling.DropZone
import Tiling.NodeId

/-!
# Rejections

Why an action cannot be performed.
-/

namespace Tiling

inductive Rejection where
  | notFound (id : NodeId)
  | emptyTree
  | nothingStaged
  /-- A drop onto itself, or a swap with itself. -/
  | sameNode (id : NodeId)
  | rootSwap (root : NodeId)
  /-- The two nodes of a move or a swap lie one inside the other. -/
  | inside (descendant ancestor : NodeId)
  /-- A move with both a parent and the root as its goal. -/
  | twoGoals
  | noGoal
  | duplicateId (id : NodeId)
  | noPlacement (target : NodeId) (zone : DropZone)
  | unusableSize (id : NodeId) (size : Float32)
deriving DecidableEq

namespace Rejection

def message : Rejection → String
  | notFound id => "node " ++ id.text ++ " not found in tree"
  | emptyTree => "tree is empty"
  | nothingStaged => "no pending action to commit"
  | sameNode id => "node " ++ id.text ++ " cannot be moved or swapped with itself"
  | rootSwap root => "root node " ++ root.text ++ " cannot be swapped"
  | inside descendant ancestor =>
      "node " ++ descendant.text ++ " is inside the subtree of " ++ ancestor.text
  | twoGoals => "move names both a parent and insert-at-root"
  | noGoal => "move names neither a parent nor insert-at-root"
  | duplicateId id => "node id " ++ id.text ++ " already exists in tree"
  | noPlacement target zone =>
      "no placement for " ++ zone.label ++ " drop on node " ++ target.text
  | unusableSize id size =>
      "invalid size " ++ Decimal.textOfSingle size ++ " for node " ++ id.text

end Rejection

end Tiling
