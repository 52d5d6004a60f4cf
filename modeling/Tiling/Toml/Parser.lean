import Tiling.Toml.Moment
import Tiling.Toml.Number

/-!
# Parsing TOML

Values nest within a limit; the lines of a document enter their values into the table of the last
header. A table goes to its place in the document when the next header or the end of the text is
reached.
-/

namespace Tiling.Toml

/-! ## Values -/

def scanItems (value : Scan Toml) : Nat → List Toml → Scan (List Toml)
  -- A comma may follow the last item.
  | 0, _, _ => none
  | rounds + 1, acc, cs => do
      match ← skipGap cs with
      | ']' :: cs => return (acc, cs)
      | cs =>
          let (item, cs) ← value cs
          match ← skipGap cs with
          | ',' :: cs => scanItems value rounds (item :: acc) cs
          | ']' :: cs => return (item :: acc, cs)
          | _ => none

def scanEntry (value : Scan Toml) (cs : List Char) : Option ((Key × Toml) × List Char) := do
  let (key, cs) ← scanKey cs
  match cs with
  | '=' :: cs =>
      let (v, cs) ← value (skipBlanks cs)
      return ((key, v), cs)
  | _ => none

def scanEntries (value : Scan Toml) : Nat → Table → Scan Table
  | 0, _, _ => none
  | rounds + 1, t, cs => do
      let ((key, v), cs) ← scanEntry value cs
      let t ← t.enter .inline key v
      match skipBlanks cs with
      | ',' :: cs => scanEntries value rounds t cs
      | '\x7d' :: cs => return (t, cs)
      | _ => none

def scanInline (value : Scan Toml) (cs : List Char) : Option (Table × List Char) :=
  match skipBlanks cs with
  | '\x7d' :: cs => some ([], cs)
  | cs => scanEntries value cs.length [] cs

def scanSimple (cs : List Char) : Option (Toml × List Char) :=
  match cs with
  | '"' :: _ | '\'' :: _ => (scanString cs).map fun (s, cs) => (.text s, cs)
  | 't' :: 'r' :: 'u' :: 'e' :: cs => some (.bool true, cs)
  | 'f' :: 'a' :: 'l' :: 's' :: 'e' :: cs => some (.bool false, cs)
  | cs =>
      match scanMoment cs with
      | some found => some found
      | none => scanNumber cs

/-- A value in which at most `depth` arrays and tables in braces are open at once. -/
def scanValue : Nat → Scan Toml
  | 0, cs => scanSimple cs
  | depth + 1, '[' :: cs =>
      (scanItems (scanValue depth) (cs.length + 1) [] cs).map fun (items, cs) =>
        (.array items.reverse, cs)
  | depth + 1, '\x7b' :: cs =>
      (scanInline (scanValue depth) cs).map fun (t, cs) => (.table .inline t, cs)
  | _ + 1, cs => scanSimple cs

def nestingLimit : Nat := 79

/-! ## Lines -/

/-- A line of a document that is not blank. -/
inductive Line where
  | header (path : Key)
  /-- A header in double brackets. -/
  | sharedHeader (path : Key)
  | entry (key : Key) (value : Toml)

namespace Line

def scan : Scan Line
  | '[' :: '[' :: cs => do
      let (path, cs) ← scanKey cs
      match cs with
      | ']' :: ']' :: cs => return (.sharedHeader path, ← finishLine? cs)
      | _ => none
  | '[' :: cs => do
      let (path, cs) ← scanKey cs
      match cs with
      | ']' :: cs => return (.header path, ← finishLine? cs)
      | _ => none
  | cs => do
      let ((key, value), cs) ← scanEntry (scanValue nestingLimit) cs
      return (.entry key value, ← finishLine? cs)

def scanAll : Nat → List Char → Option (List Line)
  -- Every line takes a character at least.
  | 0, cs => if cs.isEmpty then some [] else none
  | rounds + 1, cs =>
      match finishLine? cs with
      | some [] => some []
      | some cs => scanAll rounds cs
      | none => do
          let (line, cs) ← scan (skipBlanks cs)
          return line :: (← scanAll rounds cs)

end Line

def lines? (text : String) : Option (List Line) :=
  let cs := text.toList
  -- A byte order mark may stand at the start.
  let cs := if cs.head? = some '\ufeff' then cs.drop 1 else cs
  Line.scanAll (cs.length + 1) cs

/-! ## Documents -/

/-- A document as far as it has been read. -/
structure Draft where
  /-- The document without the table that is being filled. -/
  root : Table := []
  current : Table := []
  /-- Where the table that is being filled goes; empty for the document itself. -/
  path : Key := []
  /-- Whether it shares its header with other tables. -/
  shared : Bool := false

namespace Draft

def place? (d : Draft) (name : String) (t : Table) : Option Table :=
  match d.shared, t.lookup name with
  | false, none | false, some (.table .implied _) => some (t.set name (.table .header d.current))
  | true, none => some (t.set name (.tables [d.current]))
  | true, some (.tables elements) => some (t.set name (.tables (elements ++ [d.current])))
  | _, _ => none

def settle? (d : Draft) : Option Table :=
  match d.path.getLast? with
  | none => some d.current
  | some name => Table.alter .implied (fun _ => d.place? name) d.path.dropLast .header d.root

def startTable? (d : Draft) (path : Key) : Option Draft := do
  let root ← d.settle?
  match ← root.atHeader? path with
  | none => return { root, path }
  -- A table that was only implied so far keeps what it holds.
  | some (.table .implied current) => return { root, current, path }
  | some _ => none

def startShared? (d : Draft) (path : Key) : Option Draft := do
  let root ← d.settle?
  match ← root.atHeader? path with
  | none | some (.tables _) => return { root, path, shared := true }
  | some _ => none

def take? (d : Draft) : Line → Option Draft
  | .header path => d.startTable? path
  | .sharedHeader path => d.startShared? path
  | .entry key value => do
      return { d with current := ← d.current.enter .header key value }

end Draft

def parse? (text : String) : Option Table := do
  let lines ← lines? text
  (← lines.foldlM Draft.take? {}).settle?

end Tiling.Toml
