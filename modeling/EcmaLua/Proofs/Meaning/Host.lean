import EcmaLua.Program.Basic

/-!
# The machine that gives programs their meaning

What a program does is fixed up to a host, which knows data, objects and global names. The machine
itself knows the functions of the program, by number, and the variables, in records. Whatever else
an expression needs is a request to the host; a request may call functions before it is answered,
but the host never sees the code of a function. Requests and assignments of variables are the
effects of a run, in order.
-/

namespace EcmaLua.Meaning

/-- A datum of the host, or a function of the program. -/
inductive Value (D : Type) where
  | datum (d : D)
  | function (number : Nat)

/-- A property of an object. -/
inductive Key (D : Type) where
  | fixed (name : PropName)
  | computed (value : Value D)

/-- What the host is asked for. -/
inductive Request (D : Type) where
  | literal (value : Literal)
  | newArray
  | element (array : Value D) (index : Nat) (value : Value D)
  | arrayLength (array : Value D) (length : Nat)
  | newObject
  | define (object : Value D) (key : Key D) (value : Value D)
  | unary (op : UnaryOp) (arg : Value D)
  | binary (op : BinaryOp) (left right : Value D)
  | toNumber (value : Value D)
  | step (op : UpdateOp) (number : Value D)
  | get (object : Value D) (key : Key D)
  | put (object : Value D) (key : Key D) (value : Value D)
  | remove (object : Value D) (key : Key D)
  | has (object : Value D) (name : String)
  | readGlobal (name : String)
  | writeGlobal (name : String) (value : Value D)
  | typeofGlobal (name : String)
  | removeGlobal (name : String)
  /-- an assignment to what is no variable and no property -/
  | misplaced (value : Value D)
  | call (callee receiver : Value D) (args : List (Value D))
  | construct (callee : Value D) (args : List (Value D))
  | arguments (args : List (Value D))
  | toObject (value : Value D)
  /-- the keys of an object, to be taken one by one -/
  | keys (object : Value D)
  | moreKeys (keys : Value D)
  | nextKey (keys : Value D)
  | unsupported (node : Unsupported)

/-- How the host answers: with a value, with an exception, or after the call of a function. -/
inductive Process (D W : Type) where
  | finish (world : W) (result : Except (Value D) (Value D))
  | call (world : W) (number : Nat) (receiver : Value D) (args : List (Value D))
      (next : W → Except (Value D) (Value D) → Process D W)

structure Host where
  Datum : Type
  World : Type
  undefined : Datum
  truth : Value Datum → Bool
  answer : Request Datum → World → Process Datum World

/-- The variables of a body, or the parameter of a `catch` clause. -/
abbrev Record (D : Type) := String → Option (Value D)

/-- Give a name a value, whatever it had before. -/
def bindName {D : Type} (name : String) (value : Value D) (r : Record D) : Record D :=
  fun other => if other = name then some value else r other

/-- Where names are looked up. -/
inductive Layer (D : Type) where
  | record (number : Nat)
  /-- the object of a `with` statement -/
  | object (value : Value D)

/-- What is around a place: where names are looked up, innermost first, and `this`. -/
structure Context (D : Type) where
  chain : List (Layer D)
  receiver : Value D

/-- A function with the place where it was made. -/
structure Closure (D : Type) where
  code : Func
  chain : List (Layer D)

inductive Effect (D : Type) where
  | asked (request : Request D)
  | wrote (record : Nat) (name : String) (value : Value D)

structure Store (H : Host) where
  world : H.World
  records : List (Record H.Datum)
  closures : List (Closure H.Datum)
  /-- the effects so far, the latest last -/
  effects : List (Effect H.Datum)

/-- Why a run goes no further. -/
inductive Stop (D : Type) where
  | thrown (value : Value D)
  /-- the bound was reached -/
  | unfinished

abbrev Eval (H : Host) := ExceptT (Stop H.Datum) (StateM (Store H))

/-- The meaning of calls: of the function with a number, for a receiver and arguments. -/
abbrev Calls (H : Host) := Nat → Value H.Datum → List (Value H.Datum) → Eval H (Value H.Datum)

variable {H : Host} {α : Type}

def void : Value H.Datum := .datum H.undefined

def note (effect : Effect H.Datum) : Eval H Unit :=
  modify fun s => { s with effects := s.effects ++ [effect] }

/-- Run an action and tell what it threw. -/
def attempt (act : Eval H α) : Eval H (Except (Value H.Datum) α) :=
  ExceptT.mk fun s =>
    match act.run s with
    | (.ok a, s') => (.ok (.ok a), s')
    | (.error (.thrown v), s') => (.ok (.error v), s')
    | (.error .unfinished, s') => (.error .unfinished, s')

/-- Go on as an attempt ended. -/
def settle : Except (Value H.Datum) α → Eval H α
  | .ok a => pure a
  | .error v => throw (.thrown v)

def Process.run (calls : Calls H) : Process H.Datum H.World → Eval H (Value H.Datum)
  | .finish world result => do
    modify fun s => { s with world }
    settle result
  | .call world number receiver args next => do
    modify fun s => { s with world }
    let result ← attempt (calls number receiver args)
    let s ← get
    (next s.world result).run calls

/-- Ask the host. -/
def ask (calls : Calls H) (request : Request H.Datum) : Eval H (Value H.Datum) := do
  note (.asked request)
  let s ← get
  (H.answer request s.world).run calls

/-- What an expression denotes: a value, or the place of one. -/
inductive Ref (D : Type) where
  | value (v : Value D)
  | slot (record : Nat) (name : String)
  | global (name : String)
  | property (object : Value D) (key : Key D)

/-- The value of a variable. -/
def Store.lookup (s : Store H) (record : Nat) (name : String) : Option (Value H.Datum) :=
  (s.records[record]?).bind fun r => r name

/-- Where a name is looked up. -/
def resolve (calls : Calls H) (name : String) : List (Layer H.Datum) → Eval H (Ref H.Datum)
  | [] => pure (.global name)
  | .record number :: rest => do
    let s ← get
    if (s.lookup number name).isSome then pure (.slot number name)
    else resolve calls name rest
  | .object value :: rest => do
    let found ← ask calls (.has value name)
    if H.truth found then pure (.property value (.fixed (.ident name)))
    else resolve calls name rest

/-- The value at a place. -/
def load (calls : Calls H) : Ref H.Datum → Eval H (Value H.Datum)
  | .value v => pure v
  | .slot record name => do
    let s ← get
    pure ((s.lookup record name).getD void)
  | .global name => ask calls (.readGlobal name)
  | .property object key => ask calls (.get object key)

/-- Assign to a place. -/
def save (calls : Calls H) (v : Value H.Datum) : Ref H.Datum → Eval H Unit
  | .value _ => do
    let _ ← ask calls (.misplaced v)
  | .slot record name => do
    note (.wrote record name v)
    modify fun s => { s with records := s.records.modify record (bindName name v) }
  | .global name => do
    let _ ← ask calls (.writeGlobal name v)
  | .property object key => do
    let _ ← ask calls (.put object key v)

/-- The receiver of a function that was found at a place. -/
def Ref.receiver : Ref H.Datum → Value H.Datum
  | .property object _ => object
  | _ => void

/-- Call a value. -/
def callValue (calls : Calls H) (callee receiver : Value H.Datum)
    (args : List (Value H.Datum)) : Eval H (Value H.Datum) :=
  match callee with
  | .function number => calls number receiver args
  | .datum _ => ask calls (.call callee receiver args)

/-- Apply a unary operator to what its operand denotes. -/
def applyUnary (calls : Calls H) (op : UnaryOp) (arg : Ref H.Datum) : Eval H (Value H.Datum) :=
  match op, arg with
  | .typeof, .global name => ask calls (.typeofGlobal name)
  | .void, arg => do
    let _ ← load calls arg
    pure void
  | .delete, .value _ => ask calls (.literal (.bool true))
  | .delete, .slot _ _ => ask calls (.literal (.bool false))
  | .delete, .global name => ask calls (.removeGlobal name)
  | .delete, .property object key => ask calls (.remove object key)
  | op, arg => do ask calls (.unary op (← load calls arg))

/-- Count a place up or down; the value is the new one when the operator leads, else the old. -/
def applyUpdate (calls : Calls H) (op : UpdateOp) (leading : Bool) (arg : Ref H.Datum) :
    Eval H (Value H.Datum) := do
  let old ← ask calls (.toNumber (← load calls arg))
  let new ← ask calls (.step op old)
  save calls new arg
  pure (if leading then new else old)

/-- Make a record of its own. -/
def newRecord (record : Record H.Datum) : Eval H Nat := do
  let s ← get
  set { s with records := s.records ++ [record] }
  pure s.records.length

/-- Make a function. -/
def newClosure (closure : Closure H.Datum) : Eval H (Value H.Datum) := do
  let s ← get
  set { s with closures := s.closures ++ [closure] }
  pure (.function s.closures.length)

/-- A function expression; one with a name knows itself by it. -/
def makeFunction (f : Func) (chain : List (Layer H.Datum)) : Eval H (Value H.Datum) := do
  match f.name with
  | none => newClosure ⟨f, chain⟩
  | some name =>
    let s ← get
    let number ← newRecord (bindName name (.function s.closures.length) fun _ => none)
    newClosure ⟨f, .record number :: chain⟩

end EcmaLua.Meaning
