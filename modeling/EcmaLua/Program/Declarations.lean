import EcmaLua.Program.Basic

/-!
# Declared and referenced names

One reading of a statement list, in source order: the variables and the functions that it declares,
without crossing a function boundary, and the identifiers that occur in it, nested functions
included. The reading has a flag that is off where declarations are not collected.
`Declarations.ofBody` gathers the names as sorted sets.
-/

namespace EcmaLua

/-- Put a name into an ascending list of names, once. -/
def insertName (name : String) : List String → List String
  | [] => [name]
  | other :: rest =>
    if name < other then name :: other :: rest
    else if name = other then other :: rest
    else other :: insertName name rest

/-- The set of the given names, as an ascending list. -/
def nameSet (names : List String) : List String := names.foldr insertName []

/-- The names of declarators. -/
def Declarator.names : List Declarator → List String
  | [] => []
  | d :: rest => d.name :: Declarator.names rest

/-- What a reading notes about a name. -/
inductive Naming where
  | reference (name : String)
  | var (name : String)
  | func (name : String)
deriving DecidableEq, Repr

namespace Naming

def reference? : Naming → Option String
  | .reference name => some name
  | _ => none

def var? : Naming → Option String
  | .var name => some name
  | _ => none

def func? : Naming → Option String
  | .func name => some name
  | _ => none

end Naming

mutual

/-- The identifiers that occur in an expression, nested functions included. -/
def Expr.namings : Expr → List Naming
  | .ident name => [.reference name]
  | .this | .lit _ | .unsupported _ => []
  | .array items => Expr.namingsItems items
  | .object props => Property.namings props
  | .func f => f.namings
  | .unary _ arg => arg.namings
  | .update _ _ arg => arg.namings
  | .binary _ left right => left.namings ++ right.namings
  | .logical _ left right => left.namings ++ right.namings
  | .assign _ target value => target.namings ++ value.namings
  | .cond test cons alt => test.namings ++ cons.namings ++ alt.namings
  | .call callee args => callee.namings ++ Expr.namingsList args
  | .new callee args => callee.namings ++ Expr.namingsList args
  | .member object _ => object.namings
  | .index object key => object.namings ++ key.namings
  | .seq items => Expr.namingsList items

def Expr.namingsList : List Expr → List Naming
  | [] => []
  | e :: rest => e.namings ++ Expr.namingsList rest

def Expr.namingsOpt : Option Expr → List Naming
  | none => []
  | some e => e.namings

def Expr.namingsItems : List (Option Expr) → List Naming
  | [] => []
  | item :: rest => Expr.namingsOpt item ++ Expr.namingsItems rest

def Property.namings : List Property → List Naming
  | [] => []
  | .named _ value :: rest => value.namings ++ Property.namings rest
  | .computed key value :: rest => key.namings ++ value.namings ++ Property.namings rest

/-- The identifiers that occur in a function's body. -/
def Func.namings : Func → List Naming
  | ⟨_, _, body⟩ => Stmt.namingsList false body

def Declarator.namings (declaring : Bool) : List Declarator → List Naming
  | [] => []
  | ⟨name, init⟩ :: rest =>
    (if declaring then [.var name] else []) ++ Expr.namingsOpt init
      ++ Declarator.namings declaring rest

def ForInit.namings (declaring : Bool) : ForInit → List Naming
  | .none => []
  | .vars _ decls => Declarator.namings declaring decls
  | .expr e => e.namings

def ForInHead.namings (declaring : Bool) : ForInHead → List Naming
  | .var _ name => (if declaring then [.var name] else []) ++ [.reference name]
  | .target e => e.namings

/-- The identifiers that occur in a statement, and what it declares if that is asked for. A
declarator's name is no occurrence; the name in the head of a `for`-`in` loop is one. -/
def Stmt.namings (declaring : Bool) : Stmt → List Naming
  | .empty | .breakStmt _ _ | .continueStmt _ _ | .unsupported _ => []
  | .exprStmt e => e.namings
  | .varStmt _ decls => Declarator.namings declaring decls
  | .funcStmt f => (if declaring then f.name.toList.map .func else []) ++ f.namings
  | .returnStmt arg => Expr.namingsOpt arg
  | .throwStmt arg => arg.namings
  | .ifStmt test cons alt => test.namings ++ cons.namings declaring ++ Stmt.namingsOpt declaring alt
  | .whileStmt test body => test.namings ++ body.namings declaring
  | .doWhileStmt body test => body.namings declaring ++ test.namings
  | .forStmt init test update body =>
    init.namings declaring ++ Expr.namingsOpt test ++ Expr.namingsOpt update
      ++ body.namings declaring
  | .forInStmt head object body =>
    head.namings declaring ++ object.namings ++ body.namings declaring
  | .switchStmt discriminant cases => discriminant.namings ++ SwitchCase.namings declaring cases
  | .tryStmt block handlers finalizer _ =>
    Stmt.namingsList declaring block ++ CatchClause.namings declaring handlers
      ++ Stmt.namingsBlock declaring finalizer
  | .withStmt object body _ => object.namings ++ body.namings declaring
  | .labeled _ body => body.namings declaring
  | .block body => Stmt.namingsList declaring body

def Stmt.namingsList (declaring : Bool) : List Stmt → List Naming
  | [] => []
  | s :: rest => s.namings declaring ++ Stmt.namingsList declaring rest

def Stmt.namingsOpt (declaring : Bool) : Option Stmt → List Naming
  | none => []
  | some s => s.namings declaring

def Stmt.namingsBlock (declaring : Bool) : Option (List Stmt) → List Naming
  | none => []
  | some body => Stmt.namingsList declaring body

def SwitchCase.namings (declaring : Bool) : List SwitchCase → List Naming
  | [] => []
  | ⟨test, body⟩ :: rest =>
    Expr.namingsOpt test ++ Stmt.namingsList declaring body ++ SwitchCase.namings declaring rest

def CatchClause.namings (declaring : Bool) : List CatchClause → List Naming
  | [] => []
  | ⟨_, body⟩ :: rest => Stmt.namingsList declaring body ++ CatchClause.namings declaring rest

end

/-- The names of a function body or of the program root, as ascending lists. -/
structure Declarations where
  vars : List String
  funcs : List String
  referenced : List String
deriving DecidableEq, Repr

namespace Declarations

/-- The names that a statement list declares and references. -/
def ofBody (body : List Stmt) : Declarations :=
  let namings := Stmt.namingsList true body
  ⟨nameSet (namings.filterMap Naming.var?), nameSet (namings.filterMap Naming.func?),
    nameSet (namings.filterMap Naming.reference?)⟩

def references (d : Declarations) (name : String) : Bool := d.referenced.contains name

end Declarations

/-- The names that a function's body references, as an ascending list. -/
def Func.references (f : Func) : List String :=
  nameSet (f.namings.filterMap Naming.reference?)

end EcmaLua
