import EcmaLua.Proofs.Program.Fragments
import EcmaLua.Program.Hoisting

/-!
# Names of a program

The names that a body mentions are those of the identifiers and of the loops over keys with a
variable in it, at any depth and in its functions too. The variables and functions that it declares
are those that a fragment of it declares, at any depth but outside of its functions. The analysis
finds them in one reading, with a flag for the declarations; each kind of name has a reading of its
own that finds the same. Hoisting takes the same variables out, each where it comes first.
-/

namespace EcmaLua

mutual

/-- The variables that a statement declares. -/
def Stmt.vars : Stmt → List String
  | .varStmt _ decls => Declarator.names decls
  | .ifStmt _ cons alt => cons.vars ++ Stmt.varsOpt alt
  | .whileStmt _ body => body.vars
  | .doWhileStmt body _ => body.vars
  | .forStmt (.vars _ decls) _ _ body => Declarator.names decls ++ body.vars
  | .forStmt _ _ _ body => body.vars
  | .forInStmt (.var _ name) _ body => name :: body.vars
  | .forInStmt (.target _) _ body => body.vars
  | .switchStmt _ cases => SwitchCase.vars cases
  | .tryStmt block handlers finalizer _ =>
    Stmt.varsList block ++ CatchClause.vars handlers ++ Stmt.varsBlock finalizer
  | .withStmt _ body _ => body.vars
  | .labeled _ body => body.vars
  | .block body => Stmt.varsList body
  | .empty | .exprStmt _ | .funcStmt _ | .returnStmt _ | .throwStmt _ | .breakStmt _ _
  | .continueStmt _ _ | .unsupported _ => []

def Stmt.varsList : List Stmt → List String
  | [] => []
  | s :: rest => s.vars ++ Stmt.varsList rest

def Stmt.varsOpt : Option Stmt → List String
  | none => []
  | some s => s.vars

def Stmt.varsBlock : Option (List Stmt) → List String
  | none => []
  | some body => Stmt.varsList body

def SwitchCase.vars : List SwitchCase → List String
  | [] => []
  | ⟨_, body⟩ :: rest => Stmt.varsList body ++ SwitchCase.vars rest

def CatchClause.vars : List CatchClause → List String
  | [] => []
  | ⟨_, body⟩ :: rest => Stmt.varsList body ++ CatchClause.vars rest

end

mutual

/-- The functions that a statement declares. -/
def Stmt.funcs : Stmt → List Func
  | .funcStmt f => [f]
  | .ifStmt _ cons alt => cons.funcs ++ Stmt.funcsOpt alt
  | .whileStmt _ body => body.funcs
  | .doWhileStmt body _ => body.funcs
  | .forStmt _ _ _ body => body.funcs
  | .forInStmt _ _ body => body.funcs
  | .switchStmt _ cases => SwitchCase.funcs cases
  | .tryStmt block handlers finalizer _ =>
    Stmt.funcsList block ++ CatchClause.funcs handlers ++ Stmt.funcsBlock finalizer
  | .withStmt _ body _ => body.funcs
  | .labeled _ body => body.funcs
  | .block body => Stmt.funcsList body
  | .empty | .exprStmt _ | .varStmt _ _ | .returnStmt _ | .throwStmt _ | .breakStmt _ _
  | .continueStmt _ _ | .unsupported _ => []

def Stmt.funcsList : List Stmt → List Func
  | [] => []
  | s :: rest => s.funcs ++ Stmt.funcsList rest

def Stmt.funcsOpt : Option Stmt → List Func
  | none => []
  | some s => s.funcs

def Stmt.funcsBlock : Option (List Stmt) → List Func
  | none => []
  | some body => Stmt.funcsList body

def SwitchCase.funcs : List SwitchCase → List Func
  | [] => []
  | ⟨_, body⟩ :: rest => Stmt.funcsList body ++ SwitchCase.funcs rest

def CatchClause.funcs : List CatchClause → List Func
  | [] => []
  | ⟨_, body⟩ :: rest => Stmt.funcsList body ++ CatchClause.funcs rest

end

/-- The names of the functions that a body declares, of those that have one. -/
def Stmt.funcNamesList (body : List Stmt) : List String :=
  (Stmt.funcsList body).filterMap Func.name

/-- The names that an expression mentions. -/
def Expr.refs (e : Expr) : List String := e.namings.filterMap Naming.reference?

def Func.refs (f : Func) : List String := f.namings.filterMap Naming.reference?

def Stmt.refs (s : Stmt) : List String := (s.namings false).filterMap Naming.reference?

/-- The names that a body mentions. -/
def Stmt.refsList (body : List Stmt) : List String :=
  (Stmt.namingsList false body).filterMap Naming.reference?

theorem mem_insertName {name other : String} {names : List String} :
    other ∈ insertName name names ↔ other = name ∨ other ∈ names := by
  induction names with
  | nil => simp [insertName]
  | cons n rest ih =>
    rw [insertName]
    split
    · simp
    · split
      · next heq => simp [heq]
      · simp only [List.mem_cons, ih]
        tauto

theorem mem_nameSet {name : String} {names : List String} :
    name ∈ nameSet names ↔ name ∈ names := by
  unfold nameSet
  induction names with
  | nil => simp
  | cons n rest ih => rw [List.foldr_cons, mem_insertName, ih, List.mem_cons]

section Collection

/-- Each name at its first occurrence only. -/
def firstOccurrences : List String → List String
  | [] => []
  | name :: rest => name :: (firstOccurrences rest).filter (· ≠ name)

theorem mem_firstOccurrences {name : String} {names : List String} :
    name ∈ firstOccurrences names ↔ name ∈ names := by
  induction names with
  | nil => simp [firstOccurrences]
  | cons n rest ih =>
    simp only [firstOccurrences, List.mem_cons, List.mem_filter, ih, decide_eq_true_eq]
    by_cases h : name = n <;> simp [h]

/-- Declaring names one after the other adds each new one where it comes first. -/
theorem foldl_declareName (names more : List String) : more.foldl declareName names =
    names ++ (firstOccurrences more).filter (· ∉ names) := by
  induction more generalizing names with
  | nil => simp [firstOccurrences]
  | cons name rest ih =>
    rw [List.foldl_cons, ih, declareName, firstOccurrences, List.filter_cons, List.filter_filter]
    by_cases hname : name ∈ names
    · rw [if_pos (List.contains_iff_mem.mpr hname), if_neg (by simpa using hname)]
      refine congrArg _ (List.filter_congr fun other _ => ?_)
      by_cases hother : other = name <;> simp [hother, hname]
    · rw [if_neg (mt List.contains_iff_mem.mp hname), if_pos (by simpa using hname),
        List.append_assoc, List.singleton_append]
      refine congrArg (names ++ name :: ·) (List.filter_congr fun other _ => ?_)
      simp [not_or]

theorem Declarator.declare_eq (names : List String) (decls : List Declarator) :
    Declarator.declare names decls = (Declarator.names decls).foldl declareName names := by
  induction decls generalizing names with
  | nil => rfl
  | cons d rest ih => exact ih _

mutual

/-- Hoisting and the analysis of declarations meet the same variables in the same order. -/
theorem Stmt.declare_eq (names : List String) : (s : Stmt) →
    s.declare names = s.vars.foldl declareName names
  | .varStmt _ decls => Declarator.declare_eq names decls
  | .ifStmt _ cons alt => by
    rw [Stmt.declare, Stmt.vars, List.foldl_append, cons.declare_eq, Stmt.declareOpt_eq]
  | .whileStmt _ body | .doWhileStmt body _ | .forStmt .none _ _ body
  | .forStmt (.expr _) _ _ body | .forInStmt (.target _) _ body | .withStmt _ body _
  | .labeled _ body => body.declare_eq names
  | .forStmt (.vars _ decls) _ _ body => by
    rw [Stmt.declare, Stmt.vars, List.foldl_append, body.declare_eq, Declarator.declare_eq]
  | .forInStmt (.var _ name) _ body => body.declare_eq (declareName names name)
  | .switchStmt _ cases => SwitchCase.declare_eq names cases
  | .tryStmt block handlers finalizer _ => by
    rw [Stmt.declare, Stmt.vars, List.foldl_append, List.foldl_append, Stmt.declareBlock_eq,
      CatchClause.declare_eq, Stmt.declareList_eq]
  | .block body => Stmt.declareList_eq names body
  | .empty | .exprStmt _ | .funcStmt _ | .returnStmt _ | .throwStmt _ | .breakStmt _ _
  | .continueStmt _ _ | .unsupported _ => rfl

theorem Stmt.declareList_eq (names : List String) : (body : List Stmt) →
    Stmt.declareList names body = (Stmt.varsList body).foldl declareName names
  | [] => rfl
  | s :: rest => by
    rw [Stmt.declareList, Stmt.varsList, List.foldl_append, s.declare_eq, Stmt.declareList_eq]

theorem Stmt.declareOpt_eq (names : List String) : (s : Option Stmt) →
    Stmt.declareOpt names s = (Stmt.varsOpt s).foldl declareName names
  | none => rfl
  | some s => s.declare_eq names

theorem Stmt.declareBlock_eq (names : List String) : (body : Option (List Stmt)) →
    Stmt.declareBlock names body = (Stmt.varsBlock body).foldl declareName names
  | none => rfl
  | some body => Stmt.declareList_eq names body

theorem SwitchCase.declare_eq (names : List String) : (cases : List SwitchCase) →
    SwitchCase.declare names cases = (SwitchCase.vars cases).foldl declareName names
  | [] => rfl
  | ⟨_, body⟩ :: rest => by
    rw [SwitchCase.declare, SwitchCase.vars, List.foldl_append, Stmt.declareList_eq,
      SwitchCase.declare_eq]

theorem CatchClause.declare_eq (names : List String) : (clauses : List CatchClause) →
    CatchClause.declare names clauses = (CatchClause.vars clauses).foldl declareName names
  | [] => rfl
  | ⟨_, body⟩ :: rest => by
    rw [CatchClause.declare, CatchClause.vars, List.foldl_append, Stmt.declareList_eq,
      CatchClause.declare_eq]

end

/-- The variables that hoisting takes out of a body are those that the body declares. -/
theorem Stmt.declareList_nil (body : List Stmt) :
    Stmt.declareList [] body = firstOccurrences (Stmt.varsList body) := by
  rw [Stmt.declareList_eq, foldl_declareName]
  simp

end Collection

namespace Fragment

/-- The names that the fragment itself mentions. -/
def mentions : Fragment → List String
  | .expr (.ident name) | .head (.var _ name) => [name]
  | _ => []

/-- The variables that the fragment itself declares. -/
def declared : Fragment → List String
  | .decl d => [d.name]
  | .head (.var _ name) => [name]
  | _ => []

/-- The name of the function that the fragment declares. -/
def functionName : Fragment → List String
  | .stmt (.funcStmt f) => f.name.toList
  | _ => []

/-- What the analysis notes about a fragment itself. -/
def notes (declaring : Bool) (p : Fragment) : List Naming :=
  (if declaring then p.declared.map .var ++ p.functionName.map .func else [])
    ++ p.mentions.map .reference

/-- What the analysis notes in a fragment. -/
def namings (declaring : Bool) : Fragment → List Naming
  | .expr e => e.namings
  | .prop (.named _ value) => value.namings
  | .prop (.computed key value) => key.namings ++ value.namings
  | .func f => f.namings
  | .decl d => (if declaring then [.var d.name] else []) ++ Expr.namingsOpt d.init
  | .clause c => Stmt.namingsList declaring c.body
  | .case c => Expr.namingsOpt c.test ++ Stmt.namingsList declaring c.body
  | .init i => i.namings declaring
  | .head h => h.namings declaring
  | .stmt s => s.namings declaring

/-- The analysis goes through all parts of a fragment, and notes no declarations in those of a
function. -/
theorem namings_eq (declaring : Bool) (p : Fragment) : p.namings declaring =
    p.notes declaring ++ p.parts.flatMap (namings (declaring && p.isOpen false)) := by
  have hexprs : Expr.namingsList = _ := eq_flatMap rfl fun _ _ => rfl
  have hexpr : Expr.namingsOpt = _ := eq_flatMapOpt (g := Expr.namings) rfl fun _ => rfl
  have hitems : Expr.namingsItems = _ := eq_flatMap rfl fun _ _ => rfl
  have hprops : Property.namings = List.flatMap fun p => namings declaring (.prop p) :=
    eq_flatMap rfl fun p _ => by cases p <;> simp [Property.namings, namings]
  have hdecls : Declarator.namings declaring = List.flatMap fun d => namings declaring (.decl d) :=
    eq_flatMap rfl fun d _ => by cases d; simp [Declarator.namings, namings]
  have hstmts (d : Bool) : Stmt.namingsList d = _ := eq_flatMap rfl fun _ _ => rfl
  have hstmt : Stmt.namingsOpt declaring = _ :=
    eq_flatMapOpt (g := Stmt.namings declaring) rfl fun _ => rfl
  have hblock : Stmt.namingsBlock declaring = _ :=
    eq_flatMapOpt (g := Stmt.namingsList declaring) rfl fun _ => rfl
  have hcases : SwitchCase.namings declaring = List.flatMap fun c => namings declaring (.case c) :=
    eq_flatMap rfl fun c _ => by cases c; rfl
  have hclauses : CatchClause.namings declaring =
      List.flatMap fun c => namings declaring (.clause c) :=
    eq_flatMap rfl fun c _ => by cases c; rfl
  rcases p with x | x | x | x | x | x | x | x | x <;> cases x <;>
    simp [*, namings, notes, declared, functionName, mentions, parts, isOpen, Expr.namings,
      Func.namings, ForInit.namings, ForInHead.namings, Stmt.namings, List.flatMap_assoc,
      List.flatMap_map]

/-- The names that are mentioned in a fragment. -/
def refs (p : Fragment) : List String := (p.namings false).filterMap Naming.reference?

theorem filterMap_reference_notes (declaring : Bool) (p : Fragment) :
    (p.notes declaring).filterMap Naming.reference? = p.mentions := by
  cases declaring <;> simp [notes, List.filterMap_map, Function.comp_def, Naming.reference?]

theorem reads_refs : Reads true mentions refs := by
  intro p
  have hp : p.refs = (p.namings false).filterMap Naming.reference? := rfl
  rw [hp, namings_eq, List.filterMap_append, filterMap_reference_notes, List.filterMap_flatMap]
  simp only [isOpen_true, if_true]
  rfl

/-- The names mentioned in a fragment do not depend on the flag. -/
theorem filterMap_reference (declaring : Bool) (p : Fragment) :
    (p.namings declaring).filterMap Naming.reference? = p.refs := by
  induction p using induct generalizing declaring with
  | h p ih =>
    rw [namings_eq, List.filterMap_append, filterMap_reference_notes, List.filterMap_flatMap,
      reads_refs p]
    refine congrArg _ (List.flatMap_congr fun q hq => ?_)
    rw [ih q hq, isOpen_true, if_pos rfl]

theorem flatMap_nil {α : Type} (l : List α) : l.flatMap (fun _ => ([] : List String)) = [] := by
  simp

def vars : Fragment → List String
  | .func f => Stmt.varsList f.body
  | .decl d => [d.name]
  | .clause c => Stmt.varsList c.body
  | .case c => Stmt.varsList c.body
  | .init (.vars _ decls) => Declarator.names decls
  | .head (.var _ name) => [name]
  | .stmt s => s.vars
  | _ => []

theorem reads_vars : Reads false declared vars := by
  have hdecls : Declarator.names = List.flatMap fun d => [d.name] := eq_flatMap rfl fun _ _ => rfl
  have hstmts : Stmt.varsList = _ := eq_flatMap rfl fun _ _ => rfl
  have hstmt : Stmt.varsOpt = _ := eq_flatMapOpt (g := Stmt.vars) rfl fun _ => rfl
  have hblock : Stmt.varsBlock = _ := eq_flatMapOpt (g := Stmt.varsList) rfl fun _ => rfl
  have hcases : SwitchCase.vars = List.flatMap fun c => vars (.case c) :=
    eq_flatMap rfl fun c _ => by cases c; rfl
  have hclauses : CatchClause.vars = List.flatMap fun c => vars (.clause c) :=
    eq_flatMap rfl fun c _ => by cases c; rfl
  intro p
  rcases p with x | x | x | x | x | x | x | x | x <;> cases x
  case stmt.forStmt start _ _ _ =>
    cases start <;>
      simp [*, vars, declared, parts, isOpen, Stmt.vars, List.flatMap_map, flatMap_nil]
  case stmt.forInStmt target _ _ =>
    cases target <;> simp [*, vars, declared, parts, isOpen, Stmt.vars]
  all_goals
    simp [*, vars, declared, parts, isOpen, Stmt.vars, List.flatMap_assoc, List.flatMap_map]

def funcs : Fragment → List Func
  | .func f => Stmt.funcsList f.body
  | .clause c => Stmt.funcsList c.body
  | .case c => Stmt.funcsList c.body
  | .stmt s => s.funcs
  | _ => []

theorem reads_funcNames :
    Reads false functionName fun p => p.funcs.filterMap Func.name := by
  have hstmts : Stmt.funcsList = _ := eq_flatMap rfl fun _ _ => rfl
  have hstmt : Stmt.funcsOpt = _ := eq_flatMapOpt (g := Stmt.funcs) rfl fun _ => rfl
  have hblock : Stmt.funcsBlock = _ := eq_flatMapOpt (g := Stmt.funcsList) rfl fun _ => rfl
  have hcases : SwitchCase.funcs = List.flatMap fun c => funcs (.case c) :=
    eq_flatMap rfl fun c _ => by cases c; rfl
  have hclauses : CatchClause.funcs = List.flatMap fun c => funcs (.clause c) :=
    eq_flatMap rfl fun c _ => by cases c; rfl
  intro p
  rcases p with x | x | x | x | x | x | x | x | x <;> cases x
  case stmt.funcStmt f =>
    cases hf : f.name <;> simp [funcs, functionName, parts, isOpen, hf, Stmt.funcs]
  all_goals
    simp [*, funcs, functionName, parts, isOpen, Stmt.funcs, List.flatMap_assoc, List.flatMap_map,
      flatMap_nil, List.filterMap_flatMap]

section Declarations

variable {pick : Naming → Option String} {own read : Fragment → List String}
  (hnone : ∀ p, (notes false p).filterMap pick = [])

include hnone

theorem filterMap_namings_false (p : Fragment) : (p.namings false).filterMap pick = [] := by
  induction p using induct with
  | h p ih =>
    rw [namings_eq, List.filterMap_append, hnone, List.nil_append, List.filterMap_flatMap]
    exact List.flatMap_eq_nil_iff.mpr ih

/-- What a reading finds outside of functions, the analysis notes with its flag on. -/
theorem filterMap_namings_true (hown : ∀ p, (notes true p).filterMap pick = own p)
    (h : Reads false own read) (p : Fragment) (hp : p.isOpen false = true) :
    (p.namings true).filterMap pick = read p := by
  induction p using induct with
  | h p ih =>
    rw [namings_eq, List.filterMap_append, hown, h p, List.filterMap_flatMap, hp]
    refine congrArg _ (List.flatMap_congr fun q hq => ?_)
    cases q with
    | func f => exact filterMap_namings_false hnone (.func f)
    | _ => exact ih _ hq rfl

end Declarations

end Fragment

section Bodies

variable {body : List Stmt} {name : String}

theorem Stmt.namingsList_flatMap (declaring : Bool) : Stmt.namingsList declaring =
    List.flatMap fun s => Fragment.namings declaring (.stmt s) :=
  Fragment.eq_flatMap rfl fun _ _ => rfl

theorem Stmt.mem_refsList : name ∈ Stmt.refsList body ↔
    ∃ s ∈ body, ∃ p ∈ (Fragment.stmt s).within true, name ∈ p.mentions := by
  have hrefs : Stmt.refsList body = body.flatMap fun s => Fragment.refs (.stmt s) := by
    rw [Stmt.refsList, Stmt.namingsList_flatMap, List.filterMap_flatMap]
    rfl
  simp only [hrefs, List.mem_flatMap, Fragment.reads_refs.eq_flatMap]

theorem Stmt.varsList_flatMap : Stmt.varsList = List.flatMap fun s => Fragment.vars (.stmt s) :=
  Fragment.eq_flatMap rfl fun _ _ => rfl

theorem Stmt.mem_varsList : name ∈ Stmt.varsList body ↔
    ∃ s ∈ body, ∃ p ∈ (Fragment.stmt s).within false, name ∈ p.declared := by
  simp only [Stmt.varsList_flatMap, List.mem_flatMap, Fragment.reads_vars.eq_flatMap]

theorem Stmt.funcNamesList_flatMap : Stmt.funcNamesList =
    List.flatMap fun s => (Fragment.funcs (.stmt s)).filterMap Func.name :=
  Fragment.eq_flatMap rfl fun _ _ => List.filterMap_append

theorem Stmt.mem_funcNamesList : name ∈ Stmt.funcNamesList body ↔
    ∃ s ∈ body, ∃ p ∈ (Fragment.stmt s).within false, name ∈ p.functionName := by
  simp only [Stmt.funcNamesList_flatMap, List.mem_flatMap, Fragment.reads_funcNames.eq_flatMap]

/-- The analysis of a body finds what the readings of each kind find. -/
theorem Declarations.ofBody_eq (body : List Stmt) : Declarations.ofBody body =
    ⟨nameSet (Stmt.varsList body), nameSet (Stmt.funcNamesList body),
      nameSet (Stmt.refsList body)⟩ := by
  have hvars : (Stmt.namingsList true body).filterMap Naming.var? = Stmt.varsList body := by
    rw [Stmt.namingsList_flatMap, List.filterMap_flatMap, Stmt.varsList_flatMap]
    refine List.flatMap_congr fun s _ => Fragment.filterMap_namings_true
      (fun p => ?_) (fun p => ?_) Fragment.reads_vars (.stmt s) rfl <;>
      simp [Fragment.notes, List.filterMap_map, Function.comp_def, Naming.var?]
  have hfuncs : (Stmt.namingsList true body).filterMap Naming.func? = Stmt.funcNamesList body := by
    rw [Stmt.namingsList_flatMap, List.filterMap_flatMap, Stmt.funcNamesList_flatMap]
    refine List.flatMap_congr fun s _ => Fragment.filterMap_namings_true
      (fun p => ?_) (fun p => ?_) Fragment.reads_funcNames (.stmt s) rfl <;>
      simp [Fragment.notes, List.filterMap_map, Function.comp_def, Naming.func?]
  have hrefs : (Stmt.namingsList true body).filterMap Naming.reference? = Stmt.refsList body := by
    rw [Stmt.refsList, Stmt.namingsList_flatMap, Stmt.namingsList_flatMap, List.filterMap_flatMap,
      List.filterMap_flatMap]
    exact List.flatMap_congr fun s _ => Fragment.filterMap_reference true (.stmt s)
  rw [Declarations.ofBody, hvars, hfuncs, hrefs]

theorem Declarations.mem_funcs :
    name ∈ (Declarations.ofBody body).funcs ↔ name ∈ Stmt.funcNamesList body := by
  rw [Declarations.ofBody_eq, mem_nameSet]

end Bodies

/-- A body mentions exactly the names that a fragment of it mentions, its functions included, and
declares exactly the variables and functions that a fragment of it declares outside of its
functions. A function references what its body mentions, whether declarations are collected or
not. -/
theorem Declarations.mem_ofBody (body : List Stmt) (name : String) :
    (name ∈ (Declarations.ofBody body).referenced ↔
      ∃ s ∈ body, ∃ p ∈ (Fragment.stmt s).within true, name ∈ p.mentions) ∧
    (name ∈ (Declarations.ofBody body).vars ↔
      ∃ s ∈ body, ∃ p ∈ (Fragment.stmt s).within false, name ∈ p.declared) ∧
    (name ∈ (Declarations.ofBody body).funcs ↔
      ∃ s ∈ body, ∃ p ∈ (Fragment.stmt s).within false, name ∈ p.functionName) ∧
    ∀ f : Func, f.references = (Declarations.ofBody f.body).referenced := by
  simp only [Declarations.ofBody_eq, mem_nameSet, Stmt.mem_refsList, Stmt.mem_varsList,
    Stmt.mem_funcNamesList, true_and]
  intro f
  obtain ⟨fname, params, body⟩ := f
  rfl

end EcmaLua
