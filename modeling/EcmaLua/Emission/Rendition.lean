import EcmaLua.Emission.State
import EcmaLua.Number.PropertyKey

/-!
# Uses of an expression

An expression is used in several ways: for its value, as the place of an assignment, for its
effect alone, in front of an index, as the function of a call, and so on. A rendition holds the
Lua code of each, and the combinators here build renditions from renditions.
-/

namespace EcmaLua.Emission

open Lua (Helper)

/-- The Lua code of an expression for each of its uses. -/
structure Rendition where
  value : Emit Lua.Expr
  /-- the value, where an unassigned variable is no fault -/
  unguarded : Emit Lua.Expr
  /-- the place that an assignment writes to -/
  target : Emit Lua.Expr
  /-- the effect alone -/
  effect : Emit (List Lua.Stat)
  /-- the value in front of an index -/
  base : Emit Lua.Expr
  /-- the key of the Lua table behind the value, for a key of the program -/
  key : Lua.Expr → Lua.Expr
  /-- the result of a call with arguments -/
  invoke : Emit (List Lua.Expr) → Emit Lua.Expr
  /-- the result of deleting it -/
  delete : Emit Lua.Expr

namespace Rendition

/-- The effect of evaluating and dropping a value. -/
def drop (value : Emit Lua.Expr) : Emit (List Lua.Stat) := do
  pure [.call (Helper.sink.call [← value])]

/-- A value that needs nothing special in any use. -/
def ofValue (value : Emit Lua.Expr) : Rendition where
  value := value
  unguarded := value
  target := value
  effect := drop value
  base := value
  key := id
  invoke args := do
    let f ← value
    pure (.call f (← args))
  delete := pure (.paren (.bool false))

/-- Whether reads of a name are left unchecked, because it is always assigned. -/
def alwaysAssigned (name : String) : Resolution → Bool
  | .bound .parameter | .bound .function | .bound .builtin => true
  | _ => Lua.neverGuarded name

/-- The bare name of an identifier. -/
def bareName (name : String) : Emit Lua.Expr := do
  let _ ← lookup name
  pure (.name (Lua.spell name))

/-- The value of an identifier. -/
def readName (name : String) : Emit Lua.Expr := do
  let resolution ← lookup name
  pure (if alwaysAssigned name resolution then .name (Lua.spell name)
    else .read (Lua.spell name))

/-- An identifier. The keys of the packed arguments start at one. -/
def ident (name : String) : Rendition where
  value := readName name
  unguarded := bareName name
  target := bareName name
  effect := drop (readName name)
  base := readName name
  key k := if name = "arguments" then .binop .add k (.int 1) else k
  invoke args := do
    let f ← readName name
    pure (.call f (← args))
  delete := pure (Helper.delete.call [.name "self", .string name])

def this : Rendition :=
  { ofValue (pure (.name "self")) with delete := pure (.paren (.bool true)) }

def literalValue : Literal → Lua.Expr
  | .null => .name "null"
  | .bool b => .bool b
  | .number x => .number x
  | .string s => .string s
  | .bytes b => .bytes b
  | .regex pattern flags =>
    Helper.new.call [.name "RegExp", .string ("/" ++ pattern ++ "/" ++ flags)]

/-- A literal; calling one fails when the program runs. -/
def literal (l : Literal) : Rendition :=
  { ofValue (pure (literalValue l)) with
    base := pure (.paren (literalValue l))
    invoke := fun args => do pure (Helper.literalCallFail.call (← args)) }

/-- A function made in place. -/
def function (value : Emit Lua.Expr) : Rendition :=
  { ofValue value with
    invoke := fun args => do
      let f ← value
      pure (.call (.paren f) (← args)) }

/-- A binary operator is a support function, where Lua lacks it or means something else by it,
or an operator of Lua. -/
def spelling : BinaryOp → Helper ⊕ Lua.BinOp
  | .eq => .inr .eq
  | .ne => .inr .ne
  | .strictEq => .inl .rawEqual
  | .strictNe => .inl .rawEqual
  | .lt => .inr .lt
  | .le => .inr .le
  | .gt => .inr .gt
  | .ge => .inr .ge
  | .shl => .inl .shiftLeft
  | .shr => .inl .shiftRightSigned
  | .ushr => .inl .shiftRight
  | .add => .inl .plus
  | .sub => .inr .sub
  | .mul => .inr .mul
  | .div => .inr .div
  | .mod => .inr .mod
  | .exp => .inr .pow
  | .bitOr => .inl .bitOr
  | .bitXor => .inl .bitXor
  | .bitAnd => .inl .bitAnd
  | .isIn => .inl .containsKey
  | .instanceOf => .inl .instanceOf

/-- A binary operation on values. -/
def binaryValue (op : BinaryOp) (l r : Lua.Expr) : Lua.Expr :=
  match spelling op with
  | .inl helper =>
    let result := helper.call [l, r]
    if op = .strictNe then .paren (.unop .not result) else result
  | .inr operator => .paren (.binop operator l r)

def binary (op : BinaryOp) (l r : Rendition) : Rendition :=
  ofValue do
    let left ← l.value
    let right ← r.value
    pure (binaryValue op left right)

def logicalOp : LogicalOp → Lua.BinOp
  | .and => .and
  | .or => .or

def logical (op : LogicalOp) (l r : Rendition) : Rendition :=
  ofValue do
    let left ← l.value
    let right ← r.value
    pure (.paren (.binop (logicalOp op) left right))

/-- A unary operation; the operand of `void` is not evaluated. -/
def unaryValue (arg : Rendition) : UnaryOp → Emit Lua.Expr
  | .minus => do pure (.paren (.unop .neg (Helper.toNumber.call [← arg.value])))
  | .plus => do pure (.paren (Helper.toNumber.call [← arg.value]))
  | .not => do pure (.paren (.unop .not (Helper.toBoolean.call [← arg.value])))
  | .bitNot => do pure (Helper.bitNot.call [← arg.value])
  | .typeof => do pure (Helper.typeof.call [← arg.unguarded])
  | .void => pure .nil
  | .delete => arg.delete

def unary (op : UnaryOp) (arg : Rendition) : Rendition := ofValue (unaryValue arg op)

/-- A conditional expression. The branches are saved and restored, since a branch may be false
or nil. -/
def conditional (test cons alt : Rendition) : Rendition :=
  ofValue do
    let t ← test.value
    let c ← cons.value
    let a ← alt.value
    let chosen : Lua.Expr :=
      .binop .or
        (.binop .and (Helper.toBoolean.call [t]) (Helper.ternarySave.call [c]))
        (Helper.ternarySave.call [a])
    pure (.paren (.binop .and (.paren chosen) (Helper.ternaryRestore.call [])))

/-- Take steps within an expression. -/
def performing (steps : List Lua.Step) (result : Lua.Expr) : Lua.Expr :=
  .paren (.call (.paren (.lambda steps result)) [])

/-- The value one more or one less. -/
def stepped (op : UpdateOp) (current : Lua.Expr) : Lua.Expr :=
  match op with
  | .increment => Helper.plus.call [current, .int 1]
  | .decrement => .paren (.binop .sub current (.int 1))

/-- An update: its value is the new one when the operator leads, else the old one. -/
def update (op : UpdateOp) (leading : Bool) (arg : Rendition) : Rendition :=
  let value : Emit Lua.Expr := do
    let target ← arg.target
    let current ← arg.value
    if leading then
      pure (performing [.assign target (stepped op current)] current)
    else
      let old ← fresh "__tmp"
      pure (performing [.define old current, .assign target (stepped op current)] (.name old))
  { ofValue value with
    effect := do
      let target ← arg.target
      let current ← arg.value
      pure [.assign target (stepped op current)] }

/-- The new value of an assignment's target. -/
def assigned (op : Option BinaryOp) (target value : Rendition) : Emit Lua.Expr :=
  match op with
  | none => value.value
  | some op => do
    let current ← target.value
    let operand ← value.value
    pure (binaryValue op current operand)

/-- An assignment: its value is that of the target afterwards. -/
def assign (op : Option BinaryOp) (target value : Rendition) : Rendition :=
  let value' : Emit Lua.Expr := do
    let place ← target.target
    let new ← assigned op target value
    let result ← target.value
    pure (performing [.assign place new] result)
  { ofValue value' with
    effect := do
      let place ← target.target
      let new ← assigned op target value
      pure [.assign place new] }

/-- A call; its effect is itself. -/
def call (callee : Rendition) (args : Emit (List Lua.Expr)) : Rendition :=
  { ofValue (callee.invoke args) with
    effect := do pure [.call (← callee.invoke args)] }

def new (callee : Rendition) (args : Emit (List Lua.Expr)) : Rendition :=
  ofValue do
    let f ← callee.value
    pure (Helper.new.call (f :: (← args)))

/-- The call of a method, with its object and key. -/
def method (object key : Emit Lua.Expr) (args : Emit (List Lua.Expr)) : Emit Lua.Expr := do
  let o ← object
  let k ← key
  pure (Helper.callMember.call (o :: k :: (← args)))

/-- A property with a fixed name. The length has a support function of its own, unless it is
assigned to. -/
def member (object : Rendition) (name : String) : Rendition :=
  let place : Emit Lua.Expr := do pure (.field (← object.base) name)
  let value : Emit Lua.Expr :=
    if name = "length" then do pure (Helper.length.call [← object.value]) else place
  { ofValue value with
    target := place
    invoke := method object.value (pure (.string name))
    delete := do pure (Helper.delete.call [← object.value, .string name]) }

/-- A property with a computed key. -/
def index (object key : Rendition) : Rendition :=
  let position : Emit Lua.Expr := do pure (object.key (← key.value))
  let value : Emit Lua.Expr := do
    let o ← object.base
    pure (.index o (← position))
  { ofValue value with
    invoke := method object.value position
    delete := do
      let o ← object.value
      pure (Helper.delete.call [o, ← key.value]) }

/-- A sequence: all values, of which the last counts; its effect is that of its items. -/
def sequence (values : Emit (List Lua.Expr)) (effects : Emit (List Lua.Stat)) : Rendition :=
  { ofValue (do
      let items ← values
      pure (.index (.paren (.table (items.map .item))) (.int items.length))) with
    effect := effects }

/-- An array; its items are numbered from zero. -/
def array (count : Nat) (fields : Emit (List Lua.Field)) : Rendition :=
  ofValue do
    let items ← fields
    let all := items ++ [.keyed (.string "__Length") (.int count)]
    pure (Helper.makeArray.call [.table all])

def object (fields : Emit (List Lua.Field)) : Rendition :=
  ofValue do pure (Helper.makeObject.call [.table (← fields)])

/-- A construct outside the subset: reported, and nil with a comment in its place. -/
def unsupported (node : Unsupported) : Rendition :=
  let value : Emit Lua.Expr := do
    report (.unsupported node)
    pure (.paren (.noted .nil node.kind))
  { ofValue value with
    effect := do
      report (.unsupported node)
      pure [.note node.kind] }

/-- A property key that is not computed. -/
def propName : PropName → Lua.Expr
  | .ident name => .string name
  | .string value => .string value
  | .number value => .string value.propertyKey

end Rendition

end EcmaLua.Emission
