import Tiling.DropZone
import Tiling.IdSupply
import Tiling.Json
import Tiling.Rect

/-!
# Saved records

How records and enumerations are saved as JSON. A record is an object with one field for each of
its parts, and may also be read from the list of its parts in order. Fields of other names are
passed over, whatever they hold. An allowance bounds how many arrays and objects may be open at
once in what is not passed over.
-/

namespace Tiling

namespace Json

def allowance : Nat := 127

def record? (names : List String) : Json → Option (List (String × Json))
  -- No name may stand twice, and a list may have no further items.
  | object fields =>
      if names.all fun name => (fields.filter fun field => field.1 = name).length ≤ 1 then
        some fields
      else none
  | array items => if items.length ≤ names.length then some (names.zip items) else none
  | _ => none

/-- The name of a member of an enumeration: a string, or an object with null under that name. A
value that was held back until the tag beside it was read may have an empty object for null. -/
def choice? (held : Bool) : Json → Option String
  | string name => some name
  | object [(name, null)] => some name
  | object [(name, object [])] => if held then some name else none
  | _ => none

def variant? : Json → Option (String × Json)
  | object [(name, content)] => some (name, content)
  | _ => none

def optional? {α : Type} (read : Json → Option α) : Option Json → Option (Option α)
  | none => some none
  | some null => some none
  | some j => (read j).map some

def ofOption {α : Type} (write : α → Json) : Option α → Json
  | none => null
  | some x => write x

end Json

namespace NodeId

def toJson (id : NodeId) : Json :=
  .ofWord id.raw

def ofJson? (j : Json) : Option NodeId :=
  j.word?.map NodeId.mk

end NodeId

namespace IdSupply

def toJson (ids : IdSupply) : Json :=
  .object [("next", .ofWord ids.next)]

def ofJson? (j : Json) : Option IdSupply := do
  let fields ← j.record? ["next"]
  let next ← (← fields.lookup "next").word?
  return ⟨next⟩

end IdSupply

namespace Orientation

def name : Orientation → String
  | row => "row"
  | column => "column"

def ofName? : String → Option Orientation
  | "row" => some row
  | "column" => some column
  | _ => none

end Orientation

namespace DropZone

def name : DropZone → String
  | top => "top"
  | right => "right"
  | bottom => "bottom"
  | left => "left"
  | outerTop => "outer_top"
  | outerRight => "outer_right"
  | outerBottom => "outer_bottom"
  | outerLeft => "outer_left"
  | center => "center"

def ofName? : String → Option DropZone
  | "top" => some top
  | "right" => some right
  | "bottom" => some bottom
  | "left" => some left
  | "outer_top" => some outerTop
  | "outer_right" => some outerRight
  | "outer_bottom" => some outerBottom
  | "outer_left" => some outerLeft
  | "center" => some center
  | _ => none

end DropZone

namespace Rect

def toJson (r : Rect) : Json :=
  .object
    [("x", .ofSingle r.x), ("y", .ofSingle r.y), ("width", .ofSingle r.width),
      ("height", .ofSingle r.height)]

def ofJson? (j : Json) : Option Rect := do
  let fields ← j.record? ["x", "y", "width", "height"]
  let x ← (← fields.lookup "x").single? false
  let y ← (← fields.lookup "y").single? false
  let width ← (← fields.lookup "width").single? false
  let height ← (← fields.lookup "height").single? false
  return { x, y, width, height }

end Rect

end Tiling
