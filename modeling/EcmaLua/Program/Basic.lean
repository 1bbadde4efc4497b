import EcmaLua.Number.Double
import EcmaLua.Source.Span

/-!
# Programs

The subset of JavaScript that has a meaning in Lua: every construct of it has a constructor
here, and everything else is an `Unsupported` node that keeps its name and its place.
-/

namespace EcmaLua

/-- What an unsupported node stands for. -/
inductive Category where
  | statement
  | expression
  /-- destructuring, default values and rest elements -/
  | pattern
  /-- accessors and spread members of object literals -/
  | property
deriving DecidableEq, Repr

/-- A construct outside the subset. -/
structure Unsupported where
  kind : String
  category : Category
  span : Span
deriving DecidableEq, Repr

inductive VarKind where
  | var
  | lexical
  | constant
deriving DecidableEq, Repr

inductive UnaryOp where
  | minus
  | plus
  | not
  | bitNot
  | typeof
  | void
  | delete
deriving DecidableEq, Repr

inductive UpdateOp where
  | increment
  | decrement
deriving DecidableEq, Repr

inductive BinaryOp where
  | eq
  | ne
  | strictEq
  | strictNe
  | lt
  | le
  | gt
  | ge
  | shl
  | shr
  | ushr
  | add
  | sub
  | mul
  | div
  | mod
  | exp
  | bitOr
  | bitXor
  | bitAnd
  | isIn
  | instanceOf
deriving DecidableEq, Repr

/-- The JavaScript spelling. -/
def BinaryOp.text : BinaryOp → String
  | .eq => "=="
  | .ne => "!="
  | .strictEq => "==="
  | .strictNe => "!=="
  | .lt => "<"
  | .le => "<="
  | .gt => ">"
  | .ge => ">="
  | .shl => "<<"
  | .shr => ">>"
  | .ushr => ">>>"
  | .add => "+"
  | .sub => "-"
  | .mul => "*"
  | .div => "/"
  | .mod => "%"
  | .exp => "**"
  | .bitOr => "|"
  | .bitXor => "^"
  | .bitAnd => "&"
  | .isIn => "in"
  | .instanceOf => "instanceof"

inductive LogicalOp where
  | and
  | or
deriving DecidableEq, Repr

inductive Literal where
  | null
  | bool (value : Bool)
  | number (value : Double)
  | string (value : String)
  /-- a string with an unpaired surrogate, as its bytes -/
  | bytes (value : List UInt8)
  | regex (pattern flags : String)
deriving DecidableEq, Repr

/-- A property key that is not computed. -/
inductive PropName where
  | ident (name : String)
  | string (value : String)
  | number (value : Double)
deriving DecidableEq, Repr

mutual

inductive Expr where
  | ident (name : String)
  | this
  | lit (value : Literal)
  /-- a missing item is a hole -/
  | array (items : List (Option Expr))
  | object (props : List Property)
  | func (f : Func)
  | unary (op : UnaryOp) (arg : Expr)
  /-- an update, `leading` when the operator comes before its operand -/
  | update (op : UpdateOp) (leading : Bool) (arg : Expr)
  | binary (op : BinaryOp) (left right : Expr)
  | logical (op : LogicalOp) (left right : Expr)
  /-- a plain assignment, or one with an operator -/
  | assign (op : Option BinaryOp) (target value : Expr)
  | cond (test cons alt : Expr)
  | call (callee : Expr) (args : List Expr)
  | new (callee : Expr) (args : List Expr)
  | member (object : Expr) (name : String)
  | index (object key : Expr)
  | seq (items : List Expr)
  | unsupported (node : Unsupported)

inductive Property where
  | named (key : PropName) (value : Expr)
  | computed (key value : Expr)

structure Func where
  name : Option String
  params : List String
  body : List Stmt

structure Declarator where
  name : String
  init : Option Expr

structure CatchClause where
  param : Option String
  body : List Stmt

structure SwitchCase where
  /-- none for the default case -/
  test : Option Expr
  body : List Stmt

inductive ForInit where
  | none
  | vars (kind : VarKind) (decls : List Declarator)
  | expr (e : Expr)

inductive ForInHead where
  | var (kind : VarKind) (name : String)
  | target (e : Expr)

inductive Stmt where
  | empty
  | exprStmt (e : Expr)
  | varStmt (kind : VarKind) (decls : List Declarator)
  | funcStmt (f : Func)
  | returnStmt (arg : Option Expr)
  | throwStmt (arg : Expr)
  | breakStmt (label : Option String) (span : Span)
  | continueStmt (label : Option String) (span : Span)
  | ifStmt (test : Expr) (cons : Stmt) (alt : Option Stmt)
  | whileStmt (test : Expr) (body : Stmt)
  | doWhileStmt (body : Stmt) (test : Expr)
  | forStmt (init : ForInit) (test update : Option Expr) (body : Stmt)
  | forInStmt (head : ForInHead) (object : Expr) (body : Stmt)
  | switchStmt (discriminant : Expr) (cases : List SwitchCase)
  | tryStmt (block : List Stmt) (handlers : List CatchClause) (finalizer : Option (List Stmt))
      (span : Span)
  | withStmt (object : Expr) (body : Stmt) (span : Span)
  | labeled (label : String) (body : Stmt)
  | block (body : List Stmt)
  | unsupported (node : Unsupported)

end

instance : Inhabited Expr := ⟨.this⟩

instance : Inhabited Stmt := ⟨.empty⟩

/-- A whole script. -/
structure Program where
  body : List Stmt

/-- Whether a bare `continue` can address the statement. -/
def Stmt.isLoop : Stmt → Bool
  | .whileStmt .. | .doWhileStmt .. | .forStmt .. | .forInStmt .. => true
  | _ => false

/-- The name of the statement's kind. -/
def Stmt.kindName : Stmt → String
  | .empty => "EmptyStatement"
  | .exprStmt .. => "ExpressionStatement"
  | .varStmt .. => "VariableDeclaration"
  | .funcStmt .. => "FunctionDeclaration"
  | .returnStmt .. => "ReturnStatement"
  | .throwStmt .. => "ThrowStatement"
  | .breakStmt .. => "BreakStatement"
  | .continueStmt .. => "ContinueStatement"
  | .ifStmt .. => "IfStatement"
  | .whileStmt .. => "WhileStatement"
  | .doWhileStmt .. => "DoWhileStatement"
  | .forStmt .. => "ForStatement"
  | .forInStmt .. => "ForInStatement"
  | .switchStmt .. => "SwitchStatement"
  | .tryStmt .. => "TryStatement"
  | .withStmt .. => "WithStatement"
  | .labeled .. => "LabeledStatement"
  | .block .. => "BlockStatement"
  | .unsupported node => node.kind

namespace Expr

/-- Whether the expression has an effect of its own as a statement. -/
def isStatementLike : Expr → Bool
  | .assign .. | .call .. | .update .. | .seq .. => true
  | _ => false

/-- Whether the expression can stand on the left of an assignment. -/
def isTarget : Expr → Bool
  | .ident .. | .member .. | .index .. => true
  | _ => false

/-- The name of the expression's kind. -/
def kindName : Expr → String
  | .ident .. => "Identifier"
  | .this => "ThisExpression"
  | .lit .. => "Literal"
  | .array .. => "ArrayExpression"
  | .object .. => "ObjectExpression"
  | .func .. => "FunctionExpression"
  | .unary .. => "UnaryExpression"
  | .update .. => "UpdateExpression"
  | .binary .. => "BinaryExpression"
  | .logical .. => "LogicalExpression"
  | .assign .. => "AssignmentExpression"
  | .cond .. => "ConditionalExpression"
  | .call .. => "CallExpression"
  | .new .. => "NewExpression"
  | .member .. | .index .. => "MemberExpression"
  | .seq .. => "SequenceExpression"
  | .unsupported node => node.kind

end Expr

end EcmaLua
