import Tiling.Config
import Tiling.Toml.Parser

/-!
# Loading a configuration

A configuration is written in TOML. Settings that are missing have their defaults, and entries of
other names are passed over.
-/

namespace Tiling.Config

/-- Why a configuration cannot be loaded. -/
inductive Fault where
  /-- The file cannot be read, or is not UTF-8. -/
  | unreadable
  /-- The text is not TOML, or a setting has a value of the wrong kind. -/
  | malformed
  | invalid (which : Invalid)
deriving DecidableEq, Repr

def singleOf? : Toml → Option Float32
  | .integer n =>
      let size := n.natAbs.toUInt64.toFloat32
      some (if n < 0 then -size else size)
  | .float x => some (roundToSingle x)
  | _ => none

def settingOr {α : Type} (default : α) (read : Toml → Option α) : Option Toml → Option α
  | none => some default
  | some value => read value

def countOf? : Toml → Option Nat
  | .integer n => if 0 ≤ n then some n.toNat else none
  | _ => none

def zonesOf? : Toml → Option ZoneFractions
  | .table _ t => fractions (t.lookup "center_fraction") (t.lookup "outer_fraction")
  | .array items => fractions items[0]? items[1]?
  -- A moment says nothing about the fractions.
  | .moment => some {}
  | _ => none
where
  fractions (center outer : Option Toml) : Option ZoneFractions := do
    let defaults : ZoneFractions := {}
    let center ← settingOr defaults.center singleOf? center
    let outer ← settingOr defaults.outer singleOf? outer
    return { center, outer }

def ofTable? (t : Toml.Table) : Option Config := do
  let defaults : Config := {}
  let maxChildren ← settingOr defaults.maxChildren countOf? (t.lookup "max_children_per_node")
  let zones ← settingOr defaults.zones zonesOf? (t.lookup "drop_zones")
  return { maxChildren, zones }

def ofText (text : String) : Except Fault Config :=
  match (Toml.parse? text).bind ofTable? with
  | none => .error .malformed
  | some config =>
      match config.invalid? with
      | some which => .error (.invalid which)
      | none => .ok config

/-- What is found where a configuration file is looked for. -/
inductive Found where
  | nothing
  | directory
  | file (content : ByteArray)

def load : Found → Except Fault Config
  -- Without a file, all settings have their defaults.
  | .nothing => .ok {}
  | .directory => .error .unreadable
  | .file content =>
      match String.fromUTF8? content with
      | some text => ofText text
      | none => .error .unreadable

end Tiling.Config
