import EcmaLua.Proofs.Program.Declared
import EcmaLua.Proofs.Program.Relocation

/-!
# The shape of hoisted bodies

All functions inside of a program, at any depth and in whatever position. Hoisting a program keeps
its functions, each of them once and hoisted itself, so that the root and every function body have
the shape: one declaration of variables, the declared functions, and statements without
declarations.
-/

namespace EcmaLua

open scoped List

mutual

/-- The functions inside of an expression, at any depth. -/
def Expr.functions : Expr → List Func
  | .ident _ | .this | .lit _ | .unsupported _ => []
  | .array items => Expr.functionsItems items
  | .object props => Property.functions props
  | .func f => f :: f.inner
  | .unary _ arg => arg.functions
  | .update _ _ arg => arg.functions
  | .binary _ left right => left.functions ++ right.functions
  | .logical _ left right => left.functions ++ right.functions
  | .assign _ target value => target.functions ++ value.functions
  | .cond test cons alt => test.functions ++ cons.functions ++ alt.functions
  | .call callee args => callee.functions ++ Expr.functionsList args
  | .new callee args => callee.functions ++ Expr.functionsList args
  | .member object _ => object.functions
  | .index object key => object.functions ++ key.functions
  | .seq items => Expr.functionsList items

def Expr.functionsList : List Expr → List Func
  | [] => []
  | e :: rest => e.functions ++ Expr.functionsList rest

def Expr.functionsOpt : Option Expr → List Func
  | none => []
  | some e => e.functions

def Expr.functionsItems : List (Option Expr) → List Func
  | [] => []
  | item :: rest => Expr.functionsOpt item ++ Expr.functionsItems rest

def Property.functions : List Property → List Func
  | [] => []
  | .named _ value :: rest => value.functions ++ Property.functions rest
  | .computed key value :: rest => key.functions ++ value.functions ++ Property.functions rest

/-- The functions inside of a function's body. -/
def Func.inner : Func → List Func
  | ⟨_, _, body⟩ => Stmt.functionsList body

def Declarator.functions : List Declarator → List Func
  | [] => []
  | ⟨_, init⟩ :: rest => Expr.functionsOpt init ++ Declarator.functions rest

def ForInit.functions : ForInit → List Func
  | .none => []
  | .vars _ decls => Declarator.functions decls
  | .expr e => e.functions

def ForInHead.functions : ForInHead → List Func
  | .var _ _ => []
  | .target e => e.functions

/-- The functions inside of a statement, at any depth. -/
def Stmt.functions : Stmt → List Func
  | .empty | .breakStmt _ _ | .continueStmt _ _ | .unsupported _ => []
  | .exprStmt e => e.functions
  | .varStmt _ decls => Declarator.functions decls
  | .funcStmt f => f :: f.inner
  | .returnStmt arg => Expr.functionsOpt arg
  | .throwStmt arg => arg.functions
  | .ifStmt test cons alt => test.functions ++ cons.functions ++ Stmt.functionsOpt alt
  | .whileStmt test body => test.functions ++ body.functions
  | .doWhileStmt body test => body.functions ++ test.functions
  | .forStmt init test update body =>
    init.functions ++ Expr.functionsOpt test ++ Expr.functionsOpt update ++ body.functions
  | .forInStmt head object body => head.functions ++ object.functions ++ body.functions
  | .switchStmt discriminant cases => discriminant.functions ++ SwitchCase.functions cases
  | .tryStmt block handlers finalizer _ =>
    Stmt.functionsList block ++ CatchClause.functions handlers ++ Stmt.functionsBlock finalizer
  | .withStmt object body _ => object.functions ++ body.functions
  | .labeled _ body => body.functions
  | .block body => Stmt.functionsList body

def Stmt.functionsList : List Stmt → List Func
  | [] => []
  | s :: rest => s.functions ++ Stmt.functionsList rest

def Stmt.functionsOpt : Option Stmt → List Func
  | none => []
  | some s => s.functions

def Stmt.functionsBlock : Option (List Stmt) → List Func
  | none => []
  | some body => Stmt.functionsList body

def SwitchCase.functions : List SwitchCase → List Func
  | [] => []
  | ⟨test, body⟩ :: rest =>
    Expr.functionsOpt test ++ Stmt.functionsList body ++ SwitchCase.functions rest

def CatchClause.functions : List CatchClause → List Func
  | [] => []
  | ⟨_, body⟩ :: rest => Stmt.functionsList body ++ CatchClause.functions rest

end

/-- The functions of a program, at any depth. -/
def Program.functions (p : Program) : List Func := Stmt.functionsList p.body

/-- A body in hoisted shape: variables that are neither parameters nor functions of the source,
each once and without initializers, then the functions that the source declares, then statements
that declare nothing. -/
structure Hoisted (params : List String) (source body : List Stmt) (names : List String)
    (rest : List Stmt) : Prop where
  shape : body =
    declaration names ++ ((Stmt.funcsList source).map Func.hoist).map .funcStmt ++ rest
  nodup : names.Nodup
  free : ∀ name ∈ names, name ∉ params ∧ ∀ f ∈ Stmt.funcsList source, f.name ≠ some name
  bare : Stmt.BareList rest

theorem hoisted_hoistBody (params : List String) (body : List Stmt) :
    Hoisted params body (hoistBody params body) (leadingNames params body)
      (Stmt.residueList body) where
  shape := by rw [hoistBody_eq, hoistedFuncStmts]
  nodup := nodup_leadingNames params body
  free := by
    intro name hname
    obtain ⟨-, hfuncs, hparams⟩ := mem_leadingNames.mp hname
    refine ⟨hparams, fun f hf heq => hfuncs ?_⟩
    rw [Stmt.funcNamesList]
    exact List.mem_filterMap.mpr ⟨f, hf, heq⟩
  bare := Stmt.bare_residueList body

namespace Fragment

/-- The function that the fragment itself is. -/
def self : Fragment → List Func
  | .func f => [f]
  | _ => []

def functions : Fragment → List Func
  | .expr e => e.functions
  | .prop (.named _ value) => value.functions
  | .prop (.computed key value) => key.functions ++ value.functions
  | .func f => f :: f.inner
  | .decl d => Expr.functionsOpt d.init
  | .clause c => Stmt.functionsList c.body
  | .case c => Expr.functionsOpt c.test ++ Stmt.functionsList c.body
  | .init i => i.functions
  | .head i => i.functions
  | .stmt s => s.functions

theorem reads_functions : Reads true self functions := by
  have hexprs : Expr.functionsList = _ := eq_flatMap rfl fun _ _ => rfl
  have hexpr : Expr.functionsOpt = _ := eq_flatMapOpt (g := Expr.functions) rfl fun _ => rfl
  have hitems : Expr.functionsItems = _ := eq_flatMap rfl fun _ _ => rfl
  have hprops : Property.functions = List.flatMap fun p => functions (.prop p) :=
    eq_flatMap rfl fun p _ => by cases p <;> simp [Property.functions, functions]
  have hdecls : Declarator.functions = List.flatMap fun d => functions (.decl d) :=
    eq_flatMap rfl fun d _ => by cases d; rfl
  have hstmts : Stmt.functionsList = _ := eq_flatMap rfl fun _ _ => rfl
  have hstmt : Stmt.functionsOpt = _ := eq_flatMapOpt (g := Stmt.functions) rfl fun _ => rfl
  have hblock : Stmt.functionsBlock = _ := eq_flatMapOpt (g := Stmt.functionsList) rfl fun _ => rfl
  have hcases : SwitchCase.functions = List.flatMap fun c => functions (.case c) :=
    eq_flatMap rfl fun c _ => by cases c; rfl
  have hclauses : CatchClause.functions = List.flatMap fun c => functions (.clause c) :=
    eq_flatMap rfl fun c _ => by cases c; rfl
  intro p
  rcases p with x | x | x | x | x | x | x | x | x <;> cases x <;>
    simp [*, functions, self, parts, Expr.functions, Func.inner, ForInit.functions,
      ForInHead.functions, Stmt.functions, List.flatMap_assoc, List.flatMap_map]

theorem moves_self :
    Moves (M := Multiset Func) (fun p => p.self) fun p => p.self.map Func.hoist where
  expr _ := rfl
  func _ := rfl
  initializer _ _ := rfl
  head _ _ := rfl
  stmt _ _ _ _ := rfl
  funcStmt _ := rfl
  newBlank := by rintro _ ⟨⟩ <;> rfl
  oldBlank := by rintro _ ⟨⟩ <;> rfl

end Fragment

/-- Hoisting keeps all functions, each of them hoisted, up to order. -/
theorem Program.functions_hoist (p : Program) :
    p.hoist.functions ~ p.functions.map Func.hoist := by
  have hroot := Fragment.reads_functions.perm_hoist Fragment.moves_self ⟨none, [], p.body⟩
  exact hroot.cons_inv

/-- In a hoisted program the root and every function, at any depth, are in hoisted shape, and the
functions are those of the source, each as often as there. -/
theorem Program.hoisted_hoist (p : Program) :
    (∃ names rest, Hoisted [] p.body p.hoist.body names rest) ∧
      p.hoist.functions ~ p.functions.map Func.hoist ∧
      ∀ g ∈ p.hoist.functions, ∃ f ∈ p.functions, g = f.hoist ∧ g.name = f.name ∧
        g.params = f.params ∧ ∃ names rest, Hoisted f.params f.body g.body names rest := by
  refine ⟨⟨_, _, hoisted_hoistBody [] p.body⟩, p.functions_hoist, fun g hg => ?_⟩
  obtain ⟨f, hf, rfl⟩ := List.mem_map.mp (p.functions_hoist.mem_iff.mp hg)
  have hbody := hoisted_hoistBody f.params f.body
  rw [← f.body_hoist] at hbody
  exact ⟨f, hf, rfl, f.name_hoist, f.params_hoist, _, _, hbody⟩

/-- A function in an initializer, with a function in it that has the name of one of its
variables. -/
def layeredFunctions : Program where
  body := [.varStmt .lexical [⟨"a", some (.func ⟨some "f", ["x"],
    [.varStmt .var [⟨"x", none⟩, ⟨"b", some .this⟩], .funcStmt ⟨some "b", [], []⟩]⟩)⟩]]

theorem hoisted_layeredFunctions :
    ∃ g ∈ layeredFunctions.hoist.functions, ∃ f ∈ layeredFunctions.functions,
      g = f.hoist ∧ g.name = f.name ∧ g.params = f.params ∧
        ∃ names rest, Hoisted f.params f.body g.body names rest :=
  ⟨_, List.mem_cons_self, layeredFunctions.hoisted_hoist.2.2 _ List.mem_cons_self⟩

end EcmaLua
