import Tiling.Node
import Tiling.Saved.Record

/-!
# Saved nodes

Nodes whose leaves hold texts, as JSON. The content of a node is an object with one field, `leaf` or
`children`.
-/

namespace Tiling

namespace Header

def toJson (h : Header) (content : Json) : Json :=
  .object
    [("id", h.id.toJson), ("content", content), ("flex_direction", .string h.orientation.name),
      ("size", .ofSingle h.size), ("visible", .bool h.visible)]

def ofFields? (held : Bool) (fields : List (String × Json)) : Option Header := do
  let id ← NodeId.ofJson? (← fields.lookup "id")
  let orientation ← Orientation.ofName? (← (← fields.lookup "flex_direction").choice? held)
  let size ← (← fields.lookup "size").single? held
  -- A node is visible where nothing is said of it.
  let visible ← ((fields.lookup "visible").getD (.bool true)).bool?
  return { id, orientation, size, visible }

end Header

mutual

def Node.toJson : Node String → Json
  | .leaf h datum => h.toJson (.object [("leaf", .string datum)])
  | .branch h cs => h.toJson (.object [("children", .array (Forest.toJson cs))])

def Forest.toJson : Forest String → List Json
  | [] => []
  | c :: cs => c.toJson :: Forest.toJson cs

end

mutual

/-- How many arrays and objects are open at the deepest point of a saved node: the node, its
content, and for a branch the list of its children. -/
def Node.nesting : Node String → Nat
  | .leaf .. => 2
  | .branch _ cs => Forest.nesting cs + 3

def Forest.nesting : Forest String → Nat
  | [] => 0
  | c :: cs => max c.nesting (Forest.nesting cs)

end

def Node.read? (held : Bool) : Nat → Json → Option (Node String)
  | 0, _ => none
  | levels + 1, j => do
      let fields ← j.record? ["id", "content", "flex_direction", "size", "visible"]
      let header ← Header.ofFields? held fields
      let (kind, content) ← (← fields.lookup "content").variant?
      if kind = "leaf" then content.string?.map (.leaf header)
      else if kind = "children" then
        (← content.items?).mapM (Node.read? held levels) |>.map (.branch header)
      else none

def Node.ofJson? (held : Bool) (allowance : Nat) (j : Json) : Option (Node String) :=
  -- The allowance is never less than the number of levels.
  (Node.read? held allowance j).filter fun n => n.nesting ≤ allowance

end Tiling
