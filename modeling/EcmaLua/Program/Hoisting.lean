import EcmaLua.Program.Declarations

/-!
# Hoisting

Every function body, and the program root, is brought into one shape: a declaration of its
variables without initializers, then its function declarations in source order, then what is
left of the statements, with initializers as assignments. Declarations do not cross function
boundaries; nested bodies are hoisted on their own. All three declaration keywords count alike.
-/

namespace EcmaLua

/-- The names declared so far and one more, unless it is among them. -/
def declareName (names : List String) (name : String) : List String :=
  if names.contains name then names else names ++ [name]

def Declarator.declare (names : List String) : List Declarator → List String
  | [] => names
  | d :: rest => Declarator.declare (declareName names d.name) rest

mutual

/-- The names declared so far and those of the variables that hoisting takes out of a statement,
each where it comes first. -/
def Stmt.declare (names : List String) : Stmt → List String
  | .varStmt _ decls => Declarator.declare names decls
  | .ifStmt _ cons alt => Stmt.declareOpt (cons.declare names) alt
  | .whileStmt _ body => body.declare names
  | .doWhileStmt body _ => body.declare names
  | .forStmt (.vars _ decls) _ _ body => body.declare (Declarator.declare names decls)
  | .forStmt _ _ _ body => body.declare names
  | .forInStmt (.var _ name) _ body => body.declare (declareName names name)
  | .forInStmt (.target _) _ body => body.declare names
  | .switchStmt _ cases => SwitchCase.declare names cases
  | .tryStmt block handlers finalizer _ =>
    Stmt.declareBlock (CatchClause.declare (Stmt.declareList names block) handlers) finalizer
  | .withStmt _ body _ => body.declare names
  | .labeled _ body => body.declare names
  | .block body => Stmt.declareList names body
  | .empty | .exprStmt _ | .funcStmt _ | .returnStmt _ | .throwStmt _ | .breakStmt _ _
  | .continueStmt _ _ | .unsupported _ => names

def Stmt.declareList (names : List String) : List Stmt → List String
  | [] => names
  | s :: rest => Stmt.declareList (s.declare names) rest

def Stmt.declareOpt (names : List String) : Option Stmt → List String
  | none => names
  | some s => s.declare names

def Stmt.declareBlock (names : List String) : Option (List Stmt) → List String
  | none => names
  | some body => Stmt.declareList names body

def SwitchCase.declare (names : List String) : List SwitchCase → List String
  | [] => names
  | ⟨_, body⟩ :: rest => SwitchCase.declare (Stmt.declareList names body) rest

def CatchClause.declare (names : List String) : List CatchClause → List String
  | [] => names
  | ⟨_, body⟩ :: rest => CatchClause.declare (Stmt.declareList names body) rest

end

/-- The name of a function declaration, if the statement is one and has a name. -/
def Stmt.funcName? : Stmt → Option String
  | .funcStmt f => f.name
  | _ => none

/-- The declaration that a body begins with: its variables, without the names of its functions
and parameters. There is none when no name is left. -/
def leadingDeclaration (params vars : List String) (funcs : List Stmt) : List Stmt :=
  let taken := funcs.filterMap Stmt.funcName?
  let names := vars.filter fun name => !taken.contains name && !params.contains name
  if names.isEmpty then [] else [.varStmt .var (names.map fun name => ⟨name, none⟩)]

/-- Assignments as one expression: nothing, the single one, or a sequence. -/
def joinAssignments : List Expr → Option Expr
  | [] => none
  | [e] => some e
  | es => some (.seq es)

mutual

/-- An expression with the bodies of its functions hoisted. -/
def Expr.hoist : Expr → Expr
  | .ident name => .ident name
  | .this => .this
  | .lit value => .lit value
  | .array items => .array (Expr.hoistItems items)
  | .object props => .object (Property.hoist props)
  | .func f => .func f.hoist
  | .unary op arg => .unary op arg.hoist
  | .update op leading arg => .update op leading arg.hoist
  | .binary op left right => .binary op left.hoist right.hoist
  | .logical op left right => .logical op left.hoist right.hoist
  | .assign op target value => .assign op target.hoist value.hoist
  | .cond test cons alt => .cond test.hoist cons.hoist alt.hoist
  | .call callee args => .call callee.hoist (Expr.hoistList args)
  | .new callee args => .new callee.hoist (Expr.hoistList args)
  | .member object name => .member object.hoist name
  | .index object key => .index object.hoist key.hoist
  | .seq items => .seq (Expr.hoistList items)
  | .unsupported node => .unsupported node

def Expr.hoistList : List Expr → List Expr
  | [] => []
  | e :: rest => e.hoist :: Expr.hoistList rest

def Expr.hoistOpt : Option Expr → Option Expr
  | none => none
  | some e => some e.hoist

def Expr.hoistItems : List (Option Expr) → List (Option Expr)
  | [] => []
  | item :: rest => Expr.hoistOpt item :: Expr.hoistItems rest

def Property.hoist : List Property → List Property
  | [] => []
  | .named key value :: rest => .named key value.hoist :: Property.hoist rest
  | .computed key value :: rest => .computed key.hoist value.hoist :: Property.hoist rest

/-- A function with its body in hoisted shape. -/
def Func.hoist : Func → Func
  | ⟨name, params, body⟩ =>
    let funcs := Stmt.hoistedFuncsList body
    ⟨name, params,
      leadingDeclaration params (Stmt.declareList [] body) funcs ++ funcs ++ Stmt.residueList body⟩

/-- The initializers of a declaration, as assignments. -/
def Declarator.assignments : List Declarator → List Expr
  | [] => []
  | ⟨_, none⟩ :: rest => Declarator.assignments rest
  | ⟨name, some init⟩ :: rest =>
    .assign none (.ident name) init.hoist :: Declarator.assignments rest

def ForInit.residue : ForInit → ForInit
  | .none => .none
  | .vars _ decls =>
    match joinAssignments (Declarator.assignments decls) with
    | none => .none
    | some e => .expr e
  | .expr e => .expr e.hoist

def ForInHead.residue : ForInHead → ForInHead
  | .var _ name => .target (.ident name)
  | .target e => .target e.hoist

/-- What a statement leaves behind when its declarations are taken out, if anything. -/
def Stmt.residue : Stmt → Option Stmt
  | .empty => some .empty
  | .exprStmt e => some (.exprStmt e.hoist)
  | .varStmt _ decls => (joinAssignments (Declarator.assignments decls)).map .exprStmt
  | .funcStmt _ => none
  | .returnStmt arg => some (.returnStmt (Expr.hoistOpt arg))
  | .throwStmt arg => some (.throwStmt arg.hoist)
  | .breakStmt label span => some (.breakStmt label span)
  | .continueStmt label span => some (.continueStmt label span)
  | .ifStmt test cons alt =>
    some (.ifStmt test.hoist (cons.residue.getD .empty) (Stmt.residueOpt alt))
  | .whileStmt test body => some (.whileStmt test.hoist (body.residue.getD .empty))
  | .doWhileStmt body test => some (.doWhileStmt (body.residue.getD .empty) test.hoist)
  | .forStmt init test update body =>
    some (.forStmt init.residue (Expr.hoistOpt test) (Expr.hoistOpt update)
      (body.residue.getD .empty))
  | .forInStmt head object body =>
    some (.forInStmt head.residue object.hoist (body.residue.getD .empty))
  | .switchStmt discriminant cases =>
    some (.switchStmt discriminant.hoist (SwitchCase.residue cases))
  | .tryStmt block handlers finalizer span =>
    some (.tryStmt (Stmt.residueList block) (CatchClause.residue handlers)
      (Stmt.residueBlock finalizer) span)
  | .withStmt object body span =>
    some (.withStmt object.hoist (body.residue.getD .empty) span)
  | .labeled label body => some (.labeled label (body.residue.getD .empty))
  | .block body => some (.block (Stmt.residueList body))
  | .unsupported node => some (.unsupported node)

def Stmt.residueList : List Stmt → List Stmt
  | [] => []
  | s :: rest => s.residue.toList ++ Stmt.residueList rest

/-- A statement that must stay leaves an empty one behind. -/
def Stmt.residueOpt : Option Stmt → Option Stmt
  | none => none
  | some s => some (s.residue.getD .empty)

def Stmt.residueBlock : Option (List Stmt) → Option (List Stmt)
  | none => none
  | some body => some (Stmt.residueList body)

def SwitchCase.residue : List SwitchCase → List SwitchCase
  | [] => []
  | ⟨test, body⟩ :: rest =>
    ⟨Expr.hoistOpt test, Stmt.residueList body⟩ :: SwitchCase.residue rest

def CatchClause.residue : List CatchClause → List CatchClause
  | [] => []
  | ⟨param, body⟩ :: rest => ⟨param, Stmt.residueList body⟩ :: CatchClause.residue rest

/-- The function declarations of a statement, hoisted, in source order. -/
def Stmt.hoistedFuncs : Stmt → List Stmt
  | .funcStmt f => [.funcStmt f.hoist]
  | .ifStmt _ cons alt => cons.hoistedFuncs ++ Stmt.hoistedFuncsOpt alt
  | .whileStmt _ body => body.hoistedFuncs
  | .doWhileStmt body _ => body.hoistedFuncs
  | .forStmt _ _ _ body => body.hoistedFuncs
  | .forInStmt _ _ body => body.hoistedFuncs
  | .switchStmt _ cases => SwitchCase.hoistedFuncs cases
  | .tryStmt block handlers finalizer _ =>
    Stmt.hoistedFuncsList block ++ CatchClause.hoistedFuncs handlers
      ++ Stmt.hoistedFuncsBlock finalizer
  | .withStmt _ body _ => body.hoistedFuncs
  | .labeled _ body => body.hoistedFuncs
  | .block body => Stmt.hoistedFuncsList body
  | .empty | .exprStmt _ | .varStmt _ _ | .returnStmt _ | .throwStmt _ | .breakStmt _ _
  | .continueStmt _ _ | .unsupported _ => []

def Stmt.hoistedFuncsList : List Stmt → List Stmt
  | [] => []
  | s :: rest => s.hoistedFuncs ++ Stmt.hoistedFuncsList rest

def Stmt.hoistedFuncsOpt : Option Stmt → List Stmt
  | none => []
  | some s => s.hoistedFuncs

def Stmt.hoistedFuncsBlock : Option (List Stmt) → List Stmt
  | none => []
  | some body => Stmt.hoistedFuncsList body

def SwitchCase.hoistedFuncs : List SwitchCase → List Stmt
  | [] => []
  | ⟨_, body⟩ :: rest => Stmt.hoistedFuncsList body ++ SwitchCase.hoistedFuncs rest

def CatchClause.hoistedFuncs : List CatchClause → List Stmt
  | [] => []
  | ⟨_, body⟩ :: rest => Stmt.hoistedFuncsList body ++ CatchClause.hoistedFuncs rest

end

/-- A statement list in hoisted shape, for a function with the given parameters. -/
def hoistBody (params : List String) (body : List Stmt) : List Stmt :=
  let funcs := Stmt.hoistedFuncsList body
  leadingDeclaration params (Stmt.declareList [] body) funcs ++ funcs ++ Stmt.residueList body

/-- The program with its root and all its functions in hoisted shape. -/
def Program.hoist (p : Program) : Program := ⟨hoistBody [] p.body⟩

end EcmaLua
