import Tiling.Action
import Tiling.Saved.Node

/-!
# Saved actions

An action is an object with its kind under `type` beside its parts, or a list that starts with the
kind. The parts are held back until the kind is known, so all of them have to be readable and within
the allowance, even those that are passed over.
-/

namespace Tiling

namespace Resize

def toJson (r : Resize) : Json :=
  .object [("node_id", r.node.toJson), ("size", .ofSingle r.size)]

def ofJson? (j : Json) : Option Resize := do
  let fields ← j.record? ["node_id", "size"]
  let node ← NodeId.ofJson? (← fields.lookup "node_id")
  let size ← (← fields.lookup "size").single? true
  return { node, size }

end Resize

namespace Json

def tagged? : Json → Option (String × Json)
  | object fields =>
      match fields.filter fun field => field.1 = "type" with
      | [(_, string tag)] => some (tag, object (fields.filter fun field => field.1 ≠ "type"))
      | _ => none
  | array (string tag :: items) => some (tag, array items)
  | _ => none

def isBare : Json → Bool
  | object _ => true
  | array items => items.isEmpty
  | _ => false

end Json

namespace Action

def kind {α : Type} : Action α → String
  | stageDrop .. => "compute_move"
  | clearStaged => "clear_pending_action"
  | commitStaged => "commit_pending_action"
  | move .. => "move"
  | insert .. => "insert_node"
  | delete _ => "delete_node"
  | swap .. => "swap"
  | focus _ => "focus_node"
  | toggleMagnified _ => "magnify_node_toggle"
  | resize _ => "resize_node"

def parts : Action String → List (String × Json)
  | stageDrop target moved zone =>
      [("node", target.toJson), ("node_to_move", moved.toJson), ("direction", .string zone.name)]
  | clearStaged | commitStaged => []
  | move parent atRoot index node =>
      [("parent_id", .ofOption NodeId.toJson parent), ("insert_at_root", .bool atRoot),
        ("index", .number (.ofNat index)), ("node", node.toJson)]
  | insert node magnified focused =>
      [("node", node.toJson), ("magnified", .bool magnified), ("focused", .bool focused)]
  | delete id | focus id | toggleMagnified id => [("node_id", id.toJson)]
  | swap first second => [("node1", first.toJson), ("node2", second.toJson)]
  | resize shares => [("resize_operations", .array (shares.map Resize.toJson))]

def toJson (a : Action String) : Json :=
  .object (("type", .string a.kind) :: a.parts)

def bare? (a : Action String) (j : Json) : Option (Action String) :=
  if j.isBare then some a else none

def stageDropOfJson? (j : Json) : Option (Action String) := do
  let fields ← j.record? ["node", "node_to_move", "direction"]
  let target ← NodeId.ofJson? (← fields.lookup "node")
  let moved ← NodeId.ofJson? (← fields.lookup "node_to_move")
  let zone ← DropZone.ofName? (← (← fields.lookup "direction").choice? true)
  return .stageDrop target moved zone

def moveOfJson? (allowance : Nat) (j : Json) : Option (Action String) := do
  let fields ← j.record? ["parent_id", "insert_at_root", "index", "node"]
  let parent ← Json.optional? NodeId.ofJson? (fields.lookup "parent_id")
  let atRoot ← (← fields.lookup "insert_at_root").bool?
  let index ← (← fields.lookup "index").word?
  let node ← Node.ofJson? true allowance (← fields.lookup "node")
  return .move parent atRoot index.toNat node

def insertOfJson? (allowance : Nat) (j : Json) : Option (Action String) := do
  let fields ← j.record? ["node", "magnified", "focused"]
  let node ← Node.ofJson? true allowance (← fields.lookup "node")
  let magnified ← (← fields.lookup "magnified").bool?
  let focused ← (← fields.lookup "focused").bool?
  return .insert node magnified focused

def onNodeOfJson? (act : NodeId → Action String) (j : Json) : Option (Action String) := do
  let fields ← j.record? ["node_id"]
  return act (← NodeId.ofJson? (← fields.lookup "node_id"))

def swapOfJson? (j : Json) : Option (Action String) := do
  let fields ← j.record? ["node1", "node2"]
  let first ← NodeId.ofJson? (← fields.lookup "node1")
  let second ← NodeId.ofJson? (← fields.lookup "node2")
  return .swap first second

def resizeOfJson? (j : Json) : Option (Action String) := do
  let fields ← j.record? ["resize_operations"]
  let items ← (← fields.lookup "resize_operations").items?
  return .resize (← items.mapM Resize.ofJson?)

def ofParts? (allowance : Nat) (parts : Json) : String → Option (Action String)
  | "compute_move" => stageDropOfJson? parts
  | "clear_pending_action" => bare? .clearStaged parts
  | "commit_pending_action" => bare? .commitStaged parts
  | "move" => moveOfJson? allowance parts
  | "insert_node" => insertOfJson? allowance parts
  | "delete_node" => onNodeOfJson? .delete parts
  | "swap" => swapOfJson? parts
  | "focus_node" => onNodeOfJson? .focus parts
  | "magnify_node_toggle" => onNodeOfJson? .toggleMagnified parts
  | "resize_node" => resizeOfJson? parts
  | _ => none

def ofJson? (allowance : Nat) (j : Json) : Option (Action String) :=
  if j.depth ≤ allowance && j.readable then do
    let (kind, parts) ← j.tagged?
    ofParts? allowance parts kind
  else none

end Action

end Tiling
