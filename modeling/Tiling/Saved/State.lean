import Tiling.Json.Parser
import Tiling.Json.Printer
import Tiling.Saved.Action
import Tiling.State

/-!
# Saved states

A state is saved with all but its configuration, and what is read back has the default
configuration. Reading checks nothing about the tree: it may be unbalanced and the list of leaves
may not fit it.
-/

namespace Tiling.State

def toJson (s : State String) : Json :=
  .object
    [("root_node", .ofOption Node.toJson s.root), ("leafs", .array (Forest.toJson s.leaves)),
      ("pending_action", .ofOption Action.toJson s.staged), ("generation", .ofWord s.generation),
      ("focused_node_id", .ofOption NodeId.toJson s.focused),
      ("magnified_node_id", .ofOption NodeId.toJson s.magnified), ("ids", s.ids.toJson)]

def leavesOfJson? : Nat → Json → Option (List (Node String))
  -- The leaves take one level of the allowance for their list.
  | allowance + 1, .array items => items.mapM (Node.ofJson? false allowance)
  | _, _ => none

def ofJson? : Nat → Json → Option (State String)
  | allowance + 1, j => do
      let fields ← j.record?
        ["root_node", "leafs", "pending_action", "generation", "focused_node_id",
          "magnified_node_id", "ids"]
      let root ← Json.optional? (Node.ofJson? false allowance) (fields.lookup "root_node")
      let leaves ← leavesOfJson? allowance (← fields.lookup "leafs")
      let staged ← Json.optional? (Action.ofJson? allowance) (fields.lookup "pending_action")
      let generation ← (← fields.lookup "generation").word?
      let focused ← Json.optional? NodeId.ofJson? (fields.lookup "focused_node_id")
      let magnified ← Json.optional? NodeId.ofJson? (fields.lookup "magnified_node_id")
      let ids ← IdSupply.ofJson? (← fields.lookup "ids")
      return { root, leaves, staged, generation, focused, magnified, ids }
  | 0, _ => none

def save (s : State String) : String :=
  s.toJson.print

def load? (text : String) : Option (State String) :=
  (Json.parse? text).bind (ofJson? Json.allowance)

end Tiling.State
