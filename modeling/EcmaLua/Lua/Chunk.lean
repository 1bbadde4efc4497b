import EcmaLua.Lua.Helper
import EcmaLua.Number.Double

/-!
# Lua chunks

Lua 5.2 code as a tree. Parentheses and comments are nodes of their own, so that a chunk
determines its text up to the settings; the forms that are written on one line have
constructors apart from the ones that are spread over several.
-/

namespace EcmaLua.Lua

inductive UnOp where
  | not
  | neg
deriving DecidableEq, Repr

inductive BinOp where
  | or
  | and
  | lt
  | le
  | gt
  | ge
  | eq
  | ne
  | add
  | sub
  | mul
  | div
  | mod
  | pow
deriving DecidableEq, Repr

def BinOp.text : BinOp → String
  | .or => "or"
  | .and => "and"
  | .lt => "<"
  | .le => "<="
  | .gt => ">"
  | .ge => ">="
  | .eq => "=="
  | .ne => "~="
  | .add => "+"
  | .sub => "-"
  | .mul => "*"
  | .div => "/"
  | .mod => "%"
  | .pow => "^"

mutual

inductive Expr where
  | nil
  | bool (value : Bool)
  | vararg
  | int (value : Nat)
  | number (value : Double)
  | string (value : String)
  | bytes (value : List UInt8)
  | name (text : String)
  /-- a name whose reading is checked when the settings ask for it -/
  | read (text : String)
  | paren (e : Expr)
  | call (f : Expr) (args : List Expr)
  | field (e : Expr) (name : String)
  | index (e key : Expr)
  | unop (op : UnOp) (e : Expr)
  | binop (op : BinOp) (left right : Expr)
  | table (fields : List Field)
  /-- a function over several lines -/
  | func (params : List String) (variadic : Bool) (body : List Stat)
  /-- a function without parameters on one line -/
  | lambda (steps : List Step) (result : Expr)
  /-- an expression with a comment after it -/
  | noted (e : Expr) (note : String)

inductive Field where
  | item (value : Expr)
  | keyed (key value : Expr)

/-- A statement that can share a line with others. -/
inductive Step where
  | define (name : String) (value : Expr)
  | assign (target value : Expr)

/-- One arm of a selection: a condition and what it selects. -/
inductive Arm where
  | mk (cond : Expr) (step : Step)

/-- What comes after the first branch of a conditional. -/
inductive Tail where
  | none
  | otherwise (body : List Stat)
  | elseif (cond : Expr) (body : List Stat) (tail : Tail)

inductive Stat where
  /-- a comment that stands for a statement -/
  | note (text : String)
  /-- a comment that marks a phase -/
  | marker (text : String)
  | declare (names : List String)
  | define (names : List String) (value : Expr)
  | assign (target value : Expr)
  /-- the assignment of a loop's key at the start of its body -/
  | store (target : Expr) (key : String)
  | call (e : Expr)
  | doBlock (body : List Stat)
  | whileLoop (cond : Expr) (body : List Stat)
  | repeatUntil (body : List Stat) (cond : Expr)
  | ifThen (cond : Expr) (body : List Stat) (tail : Tail)
  /-- a conditional whose branches are single steps, each on the line of its condition -/
  | select (arms : List Arm) (otherwise : Option Step)
  | forIn (key value : String) (iterator : Expr) (body : List Stat)
  /-- a block with the scope object of a `with` statement in a local -/
  | scoped (proxy : String) (object : Expr) (body : List Stat)
  | goTo (label : String)
  | label (name : String)
  | breakLoop
  | ret (value : Expr)

end

instance : Inhabited Expr := ⟨.nil⟩

instance : Inhabited Stat := ⟨.breakLoop⟩

/-- A whole Lua file. -/
structure Chunk where
  body : List Stat

/-- The expression that denotes a support function. -/
def Helper.expr (h : Helper) : Expr :=
  match h.library with
  | none => .name h.name
  | some library => .field (.name library) h.name

/-- A call of a support function. -/
def Helper.call (h : Helper) (args : List Expr) : Expr := .call h.expr args

end EcmaLua.Lua
