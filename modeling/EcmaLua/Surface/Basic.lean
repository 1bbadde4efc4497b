import EcmaLua.Program.Basic

/-!
# Surface syntax

A script as it is read: the constructs of `Program` in the forms in which they are written, and
behind one constructor each the constructs outside that subset. Extents are kept where a
message can need them.
-/

namespace EcmaLua.Surface

/-- The expressions outside the subset. -/
inductive ForeignExpr where
  | arrow
  | classExpr
  | template
  | taggedTemplate
  | yieldExpr
  | awaitExpr
  | metaProperty
  /-- a property of `super` -/
  | superMember
  | superCall
  | importCall
  | optionalChain
  | privateName
  /-- a member whose key is a private name -/
  | privateMember
  | bigint
  | markup
  | other
deriving DecidableEq, Repr

/-- The statements outside the subset. -/
inductive ForeignStmt where
  | forOf
  | classDecl
  | usingDecl
  | typed
deriving DecidableEq, Repr

/-- The patterns outside the subset. -/
inductive PatternKind where
  | array
  | object
  | rest
  | assignment
  | expression
  | invalid
deriving DecidableEq, Repr

/-- What a declaration binds. -/
inductive Pattern where
  | ident (name : String)
  | other (kind : PatternKind) (extent : Extent)
deriving DecidableEq, Repr

/-- What an assignment can write to that is no place. -/
inductive ForeignTarget where
  | expr (extent : Extent)
  | pattern (kind : PatternKind) (extent : Extent)
deriving DecidableEq, Repr

inductive BinOp where
  | plain (op : BinaryOp)
  | logical (op : LogicalOp)
  | nullish
deriving DecidableEq, Repr

inductive AssignOp where
  | plain
  | compound (op : BinaryOp)
  /-- an assignment under a condition on the old value -/
  | logical
deriving DecidableEq, Repr

/-- The code points of a string literal; there can be unpaired surrogates among them. -/
abbrev Points := List Nat

mutual

inductive Expr where
  | this
  | ident (name : String)
  | null
  | bool (value : Bool)
  | number (value : Double)
  | string (value : Points)
  | regex (pattern flags : String)
  | paren (e : Expr)
  /-- a missing element is a hole -/
  | array (elements : List (Option Arg)) (extent : Extent)
  | object (members : List Member)
  | func (name : Option String) (f : Func)
  | unary (op : UnaryOp) (arg : Expr)
  | update (op : UpdateOp) (leading : Bool) (arg : Expr) (extent : Extent)
  | binary (op : BinOp) (left right : Expr) (extent : Extent)
  | assign (op : AssignOp) (target value : Expr) (extent : Extent)
  | assignForeign (op : AssignOp) (target : ForeignTarget) (extent : Extent)
  | cond (test cons alt : Expr)
  | member (object : Expr) (name : String)
  | index (object key : Expr)
  | call (callee : Expr) (args : List Arg) (extent : Extent)
  | new (callee : Expr) (args : List Arg)
  | seq (items : List Expr)
  | foreign (kind : ForeignExpr) (extent : Extent)

/-- An argument or an array element. -/
structure Arg where
  /-- the dots of a spread argument -/
  dots : Option Extent
  value : Expr

inductive Key where
  | ident (name : String)
  | string (value : Points)
  | number (value : Double)
  | bigint (value : Nat)
  | computed (e : Expr)

inductive Member where
  | shorthand (name : String)
  | keyValue (key : Key) (value : Expr)
  | method (key : Key) (f : Func)
  | getter (key : Key) (extent : Extent)
  | setter (key : Key) (extent : Extent)
  /-- a shorthand with a default value -/
  | assigned (name : String) (extent : Extent)
  | spread (dots : Extent) (e : Expr)

/-- A function without its name, which belongs to where the function stands. -/
structure Func where
  params : List Pattern
  body : List Stmt
  isGenerator : Bool
  isAsync : Bool
  extent : Extent

structure Declarator where
  pattern : Pattern
  init : Option Expr

structure Catch where
  param : Option Pattern
  body : List Stmt

structure Case where
  test : Option Expr
  body : List Stmt

inductive ForInit where
  | none
  | vars (kind : VarKind) (decls : List Declarator)
  | expr (e : Expr)

inductive ForInHead where
  /-- a declaration, with the first pattern in it -/
  | var (kind : VarKind) (pattern : Option Pattern)
  | target (e : Expr)
  | pattern (kind : PatternKind) (extent : Extent)
  | usingDecl (extent : Extent)

inductive Stmt where
  | empty
  | exprStmt (e : Expr)
  | block (body : List Stmt)
  | varStmt (kind : VarKind) (decls : List Declarator)
  | funcStmt (name : String) (f : Func)
  | returnStmt (arg : Option Expr)
  | throwStmt (arg : Expr)
  | breakStmt (label : Option String) (extent : Extent)
  | continueStmt (label : Option String) (extent : Extent)
  | ifStmt (test : Expr) (cons : Stmt) (alt : Option Stmt)
  | whileStmt (test : Expr) (body : Stmt)
  | doWhileStmt (body : Stmt) (test : Expr)
  | forStmt (init : ForInit) (test update : Option Expr) (body : Stmt)
  | forInStmt (head : ForInHead) (object : Expr) (body : Stmt) (extent : Extent)
  | switchStmt (discriminant : Expr) (cases : List Case)
  | tryStmt (block : List Stmt) (handler : Option Catch) (finalizer : Option (List Stmt))
      (extent : Extent)
  | withStmt (object : Expr) (body : Stmt) (extent : Extent)
  | labeled (label : String) (body : Stmt)
  | foreign (kind : ForeignStmt) (extent : Extent)

end

instance : Inhabited Expr := ⟨.this⟩

instance : Inhabited Stmt := ⟨.empty⟩

/-- A whole script as it is read. -/
structure Script where
  body : List Stmt

/-- The name under which an expression outside the subset is reported. -/
def ForeignExpr.text : ForeignExpr → String
  | .arrow => "ArrowFunctionExpression"
  | .classExpr => "ClassExpression"
  | .template => "TemplateLiteral"
  | .taggedTemplate => "TaggedTemplateExpression"
  | .yieldExpr => "YieldExpression"
  | .awaitExpr => "AwaitExpression"
  | .metaProperty => "MetaProperty"
  | .superMember => "Super"
  | .superCall => "Super"
  | .importCall => "ImportExpression"
  | .optionalChain => "ChainExpression"
  | .privateName => "PrivateName"
  | .privateMember => "PrivateName"
  | .bigint => "BigIntLiteral"
  | .markup => "JSXText"
  | .other => "UnknownExpression"

/-- The name under which a statement outside the subset is reported. -/
def ForeignStmt.text : ForeignStmt → String
  | .forOf => "ForOfStatement"
  | .classDecl => "ClassDeclaration"
  | .usingDecl => "UsingDeclaration"
  | .typed => "TypeScriptDeclaration"

/-- The name under which a pattern is reported. -/
def PatternKind.text : PatternKind → String
  | .array => "ArrayPattern"
  | .object => "ObjectPattern"
  | .rest => "RestElement"
  | .assignment => "AssignmentPattern"
  | .expression => "ExpressionPattern"
  | .invalid => "InvalidPattern"

end EcmaLua.Surface
