import EcmaLua.Number.Double
import EcmaLua.Settings.Basic

/-!
# Settings from structured values

A value as a settings file spells it, and the settings that it stands for. Unknown keys are
ignored and missing ones take their defaults; a value of another shape gives no settings.
-/

namespace EcmaLua.Settings

/-- A structured value. -/
inductive Value where
  | bool (value : Bool)
  | integer (value : Int)
  | float (value : Double)
  | string (value : String)
  | datetime (text : String)
  | array (items : List Value)
  | table (fields : List (String × Value))

instance : Inhabited Value := ⟨.table []⟩

namespace Value

def bool? : Value → Option Bool
  | .bool b => some b
  | _ => none

/-- Whether the value is an array or a table without entries. -/
def isVoid : Value → Bool
  | .array [] => true
  | .table [] => true
  | _ => false

/-- The name of a choice, alone or as the key of a void value. -/
def choice? : Value → Option String
  | .string s => some s
  | .table [(name, content)] => if content.isVoid then some name else none
  | _ => none

def newline? (v : Value) : Option Newline :=
  match v.choice? with
  | some "lf" => some .lf
  | some "crlf" => some .crlf
  | _ => none

end Value

/-- The settings with the given parts, defaults in place of the missing ones. -/
def ofParts? (refGuard newline markers : Option Value) : Option Settings := do
  let defaults : Settings := {}
  let guard ← (refGuard.map Value.bool?).getD (some defaults.refGuard)
  let terminator ← (newline.map Value.newline?).getD (some defaults.newline)
  let marked ← (markers.map Value.bool?).getD (some defaults.markers)
  pure ⟨guard, terminator, marked⟩

/-- The settings that a value stands for: a table by name, an array by position. A point in
time is a table with no known key. -/
def ofValue? : Value → Option Settings
  | .table fields =>
    ofParts? (fields.lookup "ref_guard") (fields.lookup "newline") (fields.lookup "markers")
  | .array items => ofParts? items[0]? items[1]? items[2]?
  | .datetime _ => some {}
  | _ => none

/-- The settings of a settings file: its `emit` entry. -/
def ofDocument? (fields : List (String × Value)) : Option Settings :=
  (fields.lookup "emit").elim (some {}) ofValue?

end EcmaLua.Settings
