import Tiling.Json.Token

/-!
# Parsing JSON

The parser takes one token at a time. It keeps the containers that are open, the innermost first,
and what may come next; nesting is not limited.
-/

namespace Tiling.Json

/-- A container that is open, with what it holds so far, the last first. -/
inductive Open where
  | array (items : List Json)
  | object (fields : List (Option String × Json))
  /-- An object after a field name. -/
  | field (name : Option String) (fields : List (Option String × Json))

/-- What may come next. -/
inductive Due where
  | value
  | itemOrEnd
  | name
  | nameOrEnd
  | colon
  | commaOrEnd
deriving DecidableEq, Repr

structure Parser where
  opened : List Open := []
  due : Due := .value
  /-- The value of the whole text, once it is complete. -/
  result : Option Json := none

namespace Parser

def close (fields : List (Option String × Json)) : Json :=
  match fields.reverse.mapM fun (name, value) => name.map (·, value) with
  | some fields => .object fields
  -- An object with a field name that names no text cannot be read.
  | none => .unreadable

def put (value : Json) : List Open → Option Parser
  | [] => some { due := .commaOrEnd, result := some value }
  | .array items :: opened =>
      some { opened := .array (value :: items) :: opened, due := .commaOrEnd }
  | .field name fields :: opened =>
      some { opened := .object ((name, value) :: fields) :: opened, due := .commaOrEnd }
  | .object _ :: _ => none

def begin (opened : List Open) : Token → Option Parser
  | .openArray => some { opened := .array [] :: opened, due := .itemOrEnd }
  | .openObject => some { opened := .object [] :: opened, due := .nameOrEnd }
  | .null => put .null opened
  | .bool b => put (.bool b) opened
  | .number n => put (.number n) opened
  | .text (some s) => put (.string s) opened
  | .text none => put .unreadable opened
  | _ => none

def name (opened : List Open) : Token → Option Parser
  | .text s =>
      match opened with
      | .object fields :: opened => some { opened := .field s fields :: opened, due := .colon }
      | _ => none
  | _ => none

def next (opened : List Open) : Token → Option Parser
  | .comma =>
      match opened with
      | .array _ :: _ => some { opened, due := .value }
      | .object _ :: _ => some { opened, due := .name }
      | _ => none
  | .closeArray =>
      match opened with
      | .array items :: opened => put (.array items.reverse) opened
      | _ => none
  | .closeObject =>
      match opened with
      | .object fields :: opened => put (close fields) opened
      | _ => none
  | _ => none

def step (p : Parser) (token : Token) : Option Parser :=
  match p.due, token with
  | .value, token => begin p.opened token
  | .itemOrEnd, .closeArray => next p.opened .closeArray
  | .itemOrEnd, token => begin p.opened token
  | .name, token => name p.opened token
  | .nameOrEnd, .closeObject => next p.opened .closeObject
  | .nameOrEnd, token => name p.opened token
  | .colon, .colon => some { opened := p.opened, due := .value }
  | .colon, _ => none
  | .commaOrEnd, token => next p.opened token

def run (tokens : List Token) : Option Json := do
  (← tokens.foldlM step {}).result

end Parser

def parse? (text : String) : Option Json :=
  (Token.ofText? text).bind Parser.run

end Tiling.Json
