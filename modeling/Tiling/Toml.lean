/-!
# TOML documents

The values of a TOML document and the tables that hold them. How a table came to be decides who may
add to it: a table in braces is closed, a table with a header takes the lines below its header, and
a table that a dotted key made takes further dotted keys.
-/

namespace Tiling

namespace Toml

/-- How a table came to be. -/
inductive Origin where
  /-- Written in braces. -/
  | inline
  /-- Written with a header of its own, or the document itself. -/
  | header
  /-- On the way to a table with a header. -/
  | implied
  /-- On the way of a dotted key. -/
  | dotted
deriving DecidableEq, Repr

end Toml

inductive Toml where
  | text (value : String)
  | integer (value : Int)
  | float (value : Float)
  | bool (value : Bool)
  /-- A date, a time, or both. -/
  | moment
  | array (items : List Toml)
  | table (origin : Toml.Origin) (entries : List (String × Toml))
  /-- The tables that share one header in double brackets. -/
  | tables (elements : List (List (String × Toml)))

namespace Toml

abbrev Table := List (String × Toml)

/-- A key of one or more parts. -/
abbrev Key := List String

namespace Table

def set (t : Table) (name : String) (value : Toml) : Table :=
  if (t.lookup name).isSome then
    t.map fun (k, v) => if k = name then (k, value) else (k, v)
  else t ++ [(name, value)]

/-- Whether a table may be entered on the way to another one: by dotted keys only if it has no
header of its own, by headers unless it is written in braces. -/
def mayEnter (way : Origin) : Origin → Bool
  | .inline => false
  | .header => way != .dotted
  | .implied | .dotted => true

/-- Changes the table at the end of a path, given how that table came to be. Tables that are missing
are made, and `way` is how they come to be. A path goes on in the last table of a shared header. -/
def alter (way : Origin) (change : Origin → Table → Option Table) :
    Key → Origin → Table → Option Table
  | [], origin, t => change origin t
  | name :: path, _, t =>
      match t.lookup name with
      | none => (alter way change path way []).map fun sub => t.set name (.table way sub)
      | some (.table origin sub) =>
          if mayEnter way origin then
            (alter way change path origin sub).map fun sub => t.set name (.table origin sub)
          else none
      | some (.tables elements) =>
          match elements.getLast? with
          | some last =>
              (alter way change path .header last).map fun last =>
                t.set name (.tables (elements.dropLast ++ [last]))
          | none => none
      | some _ => none

def addNew (t : Table) (name : String) (value : Toml) : Option Table :=
  if (t.lookup name).isSome then none else some (t ++ [(name, value)])

def enter (t : Table) (origin : Origin) (key : Key) (value : Toml) : Option Table := do
  -- The table that a dotted key ends in must come from dotted keys itself.
  let name ← key.getLast?
  let path := key.dropLast
  let change (origin : Origin) (t : Table) :=
    if path.isEmpty || origin = .dotted then addNew t name value else none
  alter .dotted change path origin t

/-- What stands under a header's path: `none` where the path is blocked, `some none` where there is
nothing yet. -/
def atHeader? (t : Table) : Key → Option (Option Toml)
  | [] => none
  | [name] => some (t.lookup name)
  | name :: path =>
      match t.lookup name with
      | none => some none
      | some (.table origin sub) => if mayEnter .implied origin then atHeader? sub path else none
      | some (.tables elements) => (elements.getLast?).bind fun last => atHeader? last path
      | some _ => none

end Table

end Toml

end Tiling
