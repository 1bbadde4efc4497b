import EcmaLua.Emission.Code
import EcmaLua.Proofs.Program.Names

/-!
# What emission meets in a program

The constructs outside the subset and the jumps of a tree, in the order in which emission comes to
them. Four kinds of places are passed over: the statements behind one that ends its block, the
operand of `void` and of a `delete` that deletes no property, the `catch` clauses behind the first,
and the declaration of a function without a name. Emission comes to the target of an update twice,
since it is written and read, and to that of an assignment once to write it, once more to read it
where there is an operator, and once more where the value of the assignment is used. It comes to all
else once. Beside them stand the names that a tree binds.
-/

namespace EcmaLua

/-- A `break` or `continue` statement. -/
structure JumpStatement where
  continues : Bool
  label : Option String
  span : Span
deriving DecidableEq, Repr

/-- A construct that may have to be reported. -/
inductive Issue where
  | unsupported (node : Unsupported)
  | jump (statement : JumpStatement)
deriving DecidableEq, Repr

/-- The issues of an operand, from those that it has when evaluated and when deleted. -/
def UnaryOp.issues (evaluated deleted : List Issue) : UnaryOp → List Issue
  | .minus | .plus | .not | .bitNot | .typeof => evaluated
  | .void => []
  | .delete => deleted

mutual

/-- The issues of an expression that is evaluated; its value is used, or only its effect. -/
def Expr.issues (used : Bool) : Expr → List Issue
  | .ident _ | .this | .lit _ => []
  | .array items => Expr.issuesItems items
  | .object props => Property.issues props
  | .func f => f.issues
  | .unary op arg => op.issues (arg.issues true) arg.issuesDeleted
  | .update _ _ arg => arg.issues true ++ arg.issues true
  | .binary _ left right | .logical _ left right => left.issues true ++ right.issues true
  | .assign op target value =>
    target.issues true ++ ((if op.isSome then target.issues true else []) ++
      (value.issues true ++ if used then target.issues true else []))
  | .cond test cons alt => test.issues true ++ (cons.issues true ++ alt.issues true)
  | .call callee args | .new callee args => callee.issues true ++ Expr.issuesList true args
  | .member object _ => object.issues true
  | .index object key => object.issues true ++ key.issues true
  | .seq items => Expr.issuesList used items
  | .unsupported node => [.unsupported node]

/-- The issues of an expression that is deleted. -/
def Expr.issuesDeleted : Expr → List Issue
  | .member object _ => object.issues true
  | .index object key => object.issues true ++ key.issues true
  | _ => []

def Expr.issuesList (used : Bool) : List Expr → List Issue
  | [] => []
  | e :: rest => e.issues used ++ Expr.issuesList used rest

def Expr.issuesOpt (used : Bool) : Option Expr → List Issue
  | none => []
  | some e => e.issues used

def Expr.issuesItems : List (Option Expr) → List Issue
  | [] => []
  | item :: rest => Expr.issuesOpt true item ++ Expr.issuesItems rest

def Property.issues : List Property → List Issue
  | [] => []
  | .named _ value :: rest => value.issues true ++ Property.issues rest
  | .computed key value :: rest => key.issues true ++ (value.issues true ++ Property.issues rest)

def Func.issues : Func → List Issue
  | ⟨_, _, body⟩ => Stmt.issuesList body

def Declarator.issues : List Declarator → List Issue
  | [] => []
  | ⟨_, init⟩ :: rest => Expr.issuesOpt true init ++ Declarator.issues rest

def ForInit.issues : ForInit → List Issue
  | .none => []
  | .vars _ decls => Declarator.issues decls
  | .expr e => e.issues false

def ForInHead.issues : ForInHead → List Issue
  | .var _ _ => []
  | .target e => e.issues true

/-- The issues of a statement. -/
def Stmt.issues : Stmt → List Issue
  | .empty => []
  | .exprStmt e => e.issues false
  | .varStmt _ decls => Declarator.issues decls
  | .funcStmt ⟨none, _, _⟩ => []
  | .funcStmt ⟨some _, _, body⟩ => Stmt.issuesList body
  | .returnStmt arg => Expr.issuesOpt true arg
  | .throwStmt arg => arg.issues true
  | .breakStmt label span => [.jump ⟨false, label, span⟩]
  | .continueStmt label span => [.jump ⟨true, label, span⟩]
  | .ifStmt test cons alt => test.issues true ++ (cons.issues ++ Stmt.issuesOpt alt)
  | .whileStmt test body => test.issues true ++ body.issues
  | .doWhileStmt body test => body.issues ++ test.issues true
  | .forStmt init test update body =>
    init.issues ++ (Expr.issuesOpt true test ++ (body.issues ++ Expr.issuesOpt false update))
  | .forInStmt head object body => object.issues true ++ (head.issues ++ body.issues)
  | .switchStmt discriminant cases =>
    discriminant.issues true ++ (SwitchCase.testIssues cases ++ SwitchCase.bodyIssues cases)
  | .tryStmt block handlers finalizer _ =>
    Stmt.issuesList block ++ (Stmt.issuesBlock finalizer ++ CatchClause.issuesFirst handlers)
  | .withStmt object body _ => object.issues true ++ body.issues
  | .labeled _ body => body.issues
  | .block body => Stmt.issuesList body
  | .unsupported node => [.unsupported node]

/-- The issues of statements in order, up to one that ends the block. -/
def Stmt.issuesList : List Stmt → List Issue
  | [] => []
  | s :: rest => s.issues ++ if s.endsBlock then [] else Stmt.issuesList rest

def Stmt.issuesOpt : Option Stmt → List Issue
  | none => []
  | some s => s.issues

def Stmt.issuesBlock : Option (List Stmt) → List Issue
  | none => []
  | some body => Stmt.issuesList body

def SwitchCase.testIssues : List SwitchCase → List Issue
  | [] => []
  | ⟨test, _⟩ :: rest => Expr.issuesOpt true test ++ SwitchCase.testIssues rest

def SwitchCase.bodyIssues : List SwitchCase → List Issue
  | [] => []
  | ⟨_, body⟩ :: rest => Stmt.issuesList body ++ SwitchCase.bodyIssues rest

/-- The issues of the first clause. -/
def CatchClause.issuesFirst : List CatchClause → List Issue
  | [] => []
  | ⟨_, body⟩ :: _ => Stmt.issuesList body

end

/-- The issues of a program. -/
def Program.issues (p : Program) : List Issue := Stmt.issuesList p.body

mutual

/-- The names that an expression binds: those of the functions in it. -/
def Expr.boundNames : Expr → List String
  | .ident _ | .this | .lit _ | .unsupported _ => []
  | .array items => Expr.boundNamesItems items
  | .object props => Property.boundNames props
  | .func f => f.boundNames
  | .unary _ arg | .update _ _ arg => arg.boundNames
  | .binary _ left right | .logical _ left right => left.boundNames ++ right.boundNames
  | .assign _ target value => target.boundNames ++ value.boundNames
  | .cond test cons alt => test.boundNames ++ (cons.boundNames ++ alt.boundNames)
  | .call callee args | .new callee args => callee.boundNames ++ Expr.boundNamesList args
  | .member object _ => object.boundNames
  | .index object key => object.boundNames ++ key.boundNames
  | .seq items => Expr.boundNamesList items

def Expr.boundNamesList : List Expr → List String
  | [] => []
  | e :: rest => e.boundNames ++ Expr.boundNamesList rest

def Expr.boundNamesOpt : Option Expr → List String
  | none => []
  | some e => e.boundNames

def Expr.boundNamesItems : List (Option Expr) → List String
  | [] => []
  | item :: rest => Expr.boundNamesOpt item ++ Expr.boundNamesItems rest

def Property.boundNames : List Property → List String
  | [] => []
  | .named _ value :: rest => value.boundNames ++ Property.boundNames rest
  | .computed key value :: rest =>
    key.boundNames ++ (value.boundNames ++ Property.boundNames rest)

/-- The name of a function, its parameters, and what its body binds, declared functions first. -/
def Func.boundNames : Func → List String
  | ⟨name, params, body⟩ =>
    name.toList ++ (params ++ (Stmt.funcNamesList body ++ Stmt.boundNamesList body))

def Declarator.boundNames : List Declarator → List String
  | [] => []
  | ⟨name, init⟩ :: rest => name :: (Expr.boundNamesOpt init ++ Declarator.boundNames rest)

def ForInit.boundNames : ForInit → List String
  | .none => []
  | .vars _ decls => Declarator.boundNames decls
  | .expr e => e.boundNames

/-- The head of a loop over keys binds its variable, declared or not. -/
def ForInHead.boundNames : ForInHead → List String
  | .var _ name => [name]
  | .target (.ident name) => [name]
  | .target e => e.boundNames

/-- The names that a statement binds: variables, functions and parameters of all kinds. -/
def Stmt.boundNames : Stmt → List String
  | .empty | .breakStmt _ _ | .continueStmt _ _ | .unsupported _ => []
  | .exprStmt e => e.boundNames
  | .varStmt _ decls => Declarator.boundNames decls
  | .funcStmt f => f.boundNames
  | .returnStmt arg => Expr.boundNamesOpt arg
  | .throwStmt arg => arg.boundNames
  | .ifStmt test cons alt => test.boundNames ++ (cons.boundNames ++ Stmt.boundNamesOpt alt)
  | .whileStmt test body => test.boundNames ++ body.boundNames
  | .doWhileStmt body test => body.boundNames ++ test.boundNames
  | .forStmt init test update body =>
    init.boundNames ++ (Expr.boundNamesOpt test ++ (Expr.boundNamesOpt update ++ body.boundNames))
  | .forInStmt head object body => head.boundNames ++ (object.boundNames ++ body.boundNames)
  | .switchStmt discriminant cases => discriminant.boundNames ++ SwitchCase.boundNames cases
  | .tryStmt block handlers finalizer _ =>
    Stmt.boundNamesList block ++
      (CatchClause.boundNames handlers ++ Stmt.boundNamesBlock finalizer)
  | .withStmt object body _ => object.boundNames ++ body.boundNames
  | .labeled _ body => body.boundNames
  | .block body => Stmt.boundNamesList body

def Stmt.boundNamesList : List Stmt → List String
  | [] => []
  | s :: rest => s.boundNames ++ Stmt.boundNamesList rest

def Stmt.boundNamesOpt : Option Stmt → List String
  | none => []
  | some s => s.boundNames

def Stmt.boundNamesBlock : Option (List Stmt) → List String
  | none => []
  | some body => Stmt.boundNamesList body

def SwitchCase.boundNames : List SwitchCase → List String
  | [] => []
  | ⟨test, body⟩ :: rest =>
    Expr.boundNamesOpt test ++ (Stmt.boundNamesList body ++ SwitchCase.boundNames rest)

def CatchClause.boundNames : List CatchClause → List String
  | [] => []
  | ⟨param, body⟩ :: rest =>
    param.toList ++ (Stmt.boundNamesList body ++ CatchClause.boundNames rest)

end

/-- The names that a program binds. -/
def Program.boundNames (p : Program) : List String :=
  Stmt.funcNamesList p.body ++ Stmt.boundNamesList p.body

theorem Declarator.names_subset : (decls : List Declarator) →
    ∀ name ∈ Declarator.names decls, name ∈ Declarator.boundNames decls
  | [], _, h => nomatch h
  | ⟨first, init⟩ :: rest, name, h => by
    rcases List.mem_cons.mp h with rfl | h
    · exact List.mem_cons_self
    · exact List.mem_cons_of_mem _
        (List.mem_append_right _ (Declarator.names_subset rest name h))

end EcmaLua
