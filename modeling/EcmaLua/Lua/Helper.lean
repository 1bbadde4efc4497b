/-!
# Support functions

The functions of the support library, and of Lua's own, that generated code calls.
-/

namespace EcmaLua.Lua

inductive Helper where
  | toBoolean
  | toNumber
  | toObject
  | length
  | makeArray
  | makeObject
  | callMember
  | new
  | iterate
  | delete
  | typeof
  | ternarySave
  | ternaryRestore
  | sink
  | defineFunction
  | refCheck
  | literalCallFail
  | plus
  | containsKey
  | instanceOf
  | rawEqual
  | bitNot
  | bitAnd
  | bitOr
  | bitXor
  | shiftLeft
  | shiftRight
  | shiftRightSigned
deriving DecidableEq, Repr

namespace Helper

/-- The table that holds the function, when it is not a global. -/
def library : Helper → Option String
  | .bitNot | .bitAnd | .bitOr | .bitXor | .shiftLeft | .shiftRight | .shiftRightSigned =>
    some "bit32"
  | _ => none

def name : Helper → String
  | .toBoolean => "__ToBoolean"
  | .toNumber => "__ToNumber"
  | .toObject => "__ToObject"
  | .length => "__Length"
  | .makeArray => "__MakeArray"
  | .makeObject => "__MakeObject"
  | .callMember => "__CallMember"
  | .new => "__New"
  | .iterate => "__Iterate"
  | .delete => "__Delete"
  | .typeof => "__Typeof"
  | .ternarySave => "__TernarySave"
  | .ternaryRestore => "__TernaryRestore"
  | .sink => "__Sink"
  | .defineFunction => "__DefineFunction"
  | .refCheck => "__RefCheck"
  | .literalCallFail => "__LiteralCallFail"
  | .plus => "__PlusOp"
  | .containsKey => "__ContainsKey"
  | .instanceOf => "__InstanceOf"
  | .rawEqual => "rawequal"
  | .bitNot => "bnot"
  | .bitAnd => "band"
  | .bitOr => "bor"
  | .bitXor => "bxor"
  | .shiftLeft => "lshift"
  | .shiftRight => "rshift"
  | .shiftRightSigned => "arshift"

/-- The way to the function in full. -/
def text (h : Helper) : String :=
  match h.library with
  | none => h.name
  | some library => library ++ "." ++ h.name

/-- The functions that stand for binary operators. -/
def binary : List Helper :=
  [.shiftLeft, .shiftRight, .shiftRightSigned, .rawEqual, .bitAnd, .bitXor, .bitOr, .plus,
    .containsKey, .instanceOf]

end Helper

/-- The table behind the global scope. -/
def globalObjects : String := "__JsGlobalObjects"

/-- Whether reads of an identifier are never guarded: names of the support library and the
undefined value. -/
def neverGuarded (identifier : String) : Bool :=
  identifier.toList.take 2 == ['_', '_'] || identifier == "undefined"
    || Helper.binary.any fun h => h.text == identifier

end EcmaLua.Lua
