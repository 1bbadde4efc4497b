import EcmaLua.Proofs.Program.Rules

/-!
# What a body declares

The statements that declare nothing, functions inside of them apart. Hoisting takes a body apart:
the functions in front are those of the source, and what is left behind is bare.
-/

namespace EcmaLua

/-- A loop that does not start with a declaration. -/
def ForInit.Bare : ForInit → Prop
  | .none | .expr _ => True
  | .vars .. => False

/-- A loop over keys that does not declare the variable of the key. -/
def ForInHead.Bare : ForInHead → Prop
  | .var .. => False
  | .target _ => True

mutual

/-- A statement that declares nothing, functions inside of it apart. -/
def Stmt.Bare : Stmt → Prop
  | .varStmt .. | .funcStmt _ => False
  | .ifStmt _ cons alt => cons.Bare ∧ Stmt.BareOpt alt
  | .whileStmt _ body | .doWhileStmt body _ => body.Bare
  | .forStmt init _ _ body => init.Bare ∧ body.Bare
  | .forInStmt head _ body => head.Bare ∧ body.Bare
  | .switchStmt _ cases => SwitchCase.Bare cases
  | .tryStmt block handlers finalizer _ =>
    Stmt.BareList block ∧ CatchClause.Bare handlers ∧ Stmt.BareBlock finalizer
  | .withStmt _ body _ | .labeled _ body => body.Bare
  | .block body => Stmt.BareList body
  | .empty | .exprStmt _ | .returnStmt _ | .throwStmt _ | .breakStmt _ _ | .continueStmt _ _
  | .unsupported _ => True

def Stmt.BareList : List Stmt → Prop
  | [] => True
  | s :: rest => s.Bare ∧ Stmt.BareList rest

def Stmt.BareOpt : Option Stmt → Prop
  | none => True
  | some s => s.Bare

def Stmt.BareBlock : Option (List Stmt) → Prop
  | none => True
  | some body => Stmt.BareList body

def SwitchCase.Bare : List SwitchCase → Prop
  | [] => True
  | ⟨_, body⟩ :: rest => Stmt.BareList body ∧ SwitchCase.Bare rest

def CatchClause.Bare : List CatchClause → Prop
  | [] => True
  | ⟨_, body⟩ :: rest => Stmt.BareList body ∧ CatchClause.Bare rest

end

/-- Variables without initializers, in one declaration; no names, no declaration. -/
def declaration : List String → List Stmt
  | [] => []
  | names => [.varStmt .var (names.map fun name => ⟨name, none⟩)]

/-- The variables that a hoisted body begins with. -/
def leadingNames (params : List String) (body : List Stmt) : List String :=
  (firstOccurrences (Stmt.varsList body)).filter fun name =>
    !(Stmt.funcNamesList body).contains name && !params.contains name

theorem nodup_firstOccurrences (names : List String) : (firstOccurrences names).Nodup := by
  induction names with
  | nil => exact List.nodup_nil
  | cons name rest ih =>
    rw [firstOccurrences, List.nodup_cons]
    exact ⟨by simp, ih.filter _⟩

theorem firstOccurrences_of_nodup {names : List String} (h : names.Nodup) :
    firstOccurrences names = names := by
  induction names with
  | nil => rfl
  | cons name rest ih =>
    obtain ⟨hname, hrest⟩ := List.nodup_cons.mp h
    rw [firstOccurrences, ih hrest, List.filter_eq_self.mpr]
    intro other hother
    simp only [ne_eq, decide_eq_true_eq]
    rintro rfl
    exact hname hother

theorem nodup_leadingNames (params : List String) (body : List Stmt) :
    (leadingNames params body).Nodup :=
  (nodup_firstOccurrences _).filter _

theorem mem_leadingNames {params : List String} {body : List Stmt} {name : String} :
    name ∈ leadingNames params body ↔
      name ∈ Stmt.varsList body ∧ name ∉ Stmt.funcNamesList body ∧ name ∉ params := by
  simp [leadingNames, mem_firstOccurrences]

section Functions

/-- What hoisting puts in front of a part that declares these functions. -/
def Fronted (fs : List Func) (front : List Stmt) : Prop :=
  front = fs.map fun f => .funcStmt f.hoist

theorem Fronted.append {fs fs' : List Func} {front front' : List Stmt} (h : Fronted fs front)
    (h' : Fronted fs' front') : Fronted (fs ++ fs') (front ++ front') := by
  rw [Fronted, h, h', List.map_append]

mutual

/-- The functions that hoisting puts in front are the declared ones, hoisted, in source order. -/
theorem Stmt.fronted : (s : Stmt) → Fronted s.funcs s.hoistedFuncs
  | .ifStmt _ cons alt => (cons.fronted).append (Stmt.frontedOpt alt)
  | .whileStmt _ body | .doWhileStmt body _ | .forStmt _ _ _ body | .forInStmt _ _ body
  | .withStmt _ body _ | .labeled _ body => body.fronted
  | .switchStmt _ cases => SwitchCase.fronted cases
  | .tryStmt block handlers finalizer _ =>
    ((Stmt.frontedList block).append (CatchClause.fronted handlers)).append
      (Stmt.frontedBlock finalizer)
  | .block body => Stmt.frontedList body
  | .empty | .exprStmt _ | .varStmt _ _ | .funcStmt _ | .returnStmt _ | .throwStmt _
  | .breakStmt _ _ | .continueStmt _ _ | .unsupported _ => rfl

theorem Stmt.frontedList : (body : List Stmt) →
    Fronted (Stmt.funcsList body) (Stmt.hoistedFuncsList body)
  | [] => rfl
  | s :: rest => (s.fronted).append (Stmt.frontedList rest)

theorem Stmt.frontedOpt : (s : Option Stmt) →
    Fronted (Stmt.funcsOpt s) (Stmt.hoistedFuncsOpt s)
  | none => rfl
  | some s => s.fronted

theorem Stmt.frontedBlock : (body : Option (List Stmt)) →
    Fronted (Stmt.funcsBlock body) (Stmt.hoistedFuncsBlock body)
  | none => rfl
  | some body => Stmt.frontedList body

theorem SwitchCase.fronted : (cases : List SwitchCase) →
    Fronted (SwitchCase.funcs cases) (SwitchCase.hoistedFuncs cases)
  | [] => rfl
  | ⟨_, body⟩ :: rest => (Stmt.frontedList body).append (SwitchCase.fronted rest)

theorem CatchClause.fronted : (clauses : List CatchClause) →
    Fronted (CatchClause.funcs clauses) (CatchClause.hoistedFuncs clauses)
  | [] => rfl
  | ⟨_, body⟩ :: rest => (Stmt.frontedList body).append (CatchClause.fronted rest)

end

@[simp] theorem Func.name_hoist (f : Func) : f.hoist.name = f.name := by
  cases f
  rfl

@[simp] theorem Func.params_hoist (f : Func) : f.hoist.params = f.params := by
  cases f
  rfl

theorem Func.body_hoist (f : Func) : f.hoist.body = hoistBody f.params f.body := by
  cases f
  rfl

/-- The declaration that hoisting begins a body with. -/
theorem leadingDeclaration_eq (params : List String) (body : List Stmt) :
    leadingDeclaration params (Stmt.declareList [] body) (Stmt.hoistedFuncsList body) =
      declaration (leadingNames params body) := by
  have hnames : (Stmt.hoistedFuncsList body).filterMap Stmt.funcName? =
      Stmt.funcNamesList body := by
    rw [Stmt.frontedList body, Stmt.funcNamesList, List.filterMap_map]
    exact List.filterMap_congr fun f _ => f.name_hoist
  unfold leadingDeclaration
  rw [hnames, Stmt.declareList_nil]
  change (if (leadingNames params body).isEmpty then [] else
    [Stmt.varStmt .var ((leadingNames params body).map fun name => ⟨name, none⟩)]) = _
  cases leadingNames params body <;> rfl

end Functions

section Bare

theorem Stmt.BareList.append {a b : List Stmt} (ha : Stmt.BareList a) (hb : Stmt.BareList b) :
    Stmt.BareList (a ++ b) := by
  induction a with
  | nil => exact hb
  | cons s rest ih => exact ⟨ha.1, ih ha.2⟩

theorem Stmt.BareOpt.toList {s : Option Stmt} (h : Stmt.BareOpt s) : Stmt.BareList s.toList := by
  cases s with
  | none => trivial
  | some s => exact ⟨h, trivial⟩

theorem Stmt.BareOpt.getD {s : Option Stmt} (h : Stmt.BareOpt s) : (s.getD .empty).Bare := by
  cases s with
  | none => trivial
  | some s => exact h

theorem ForInit.bare_residue : (init : ForInit) → init.residue.Bare
  | .none | .expr _ => trivial
  | .vars _ decls => by
    rw [ForInit.residue]
    cases joinAssignments (Declarator.assignments decls) with
    | none => trivial
    | some e => trivial

theorem ForInHead.bare_residue (head : ForInHead) : head.residue.Bare := by
  cases head <;> trivial

mutual

/-- What hoisting leaves behind declares nothing. -/
theorem Stmt.bare_residue : (s : Stmt) → Stmt.BareOpt s.residue
  | .varStmt _ decls => by
    rw [Stmt.residue]
    cases joinAssignments (Declarator.assignments decls) with
    | none => trivial
    | some e => trivial
  | .ifStmt _ cons alt => ⟨(cons.bare_residue).getD, Stmt.bare_residueOpt alt⟩
  | .whileStmt _ body => (body.bare_residue).getD
  | .doWhileStmt body _ => (body.bare_residue).getD
  | .forStmt init _ _ body => ⟨init.bare_residue, (body.bare_residue).getD⟩
  | .forInStmt head _ body => ⟨head.bare_residue, (body.bare_residue).getD⟩
  | .switchStmt _ cases => SwitchCase.bare_residue cases
  | .tryStmt block handlers finalizer _ =>
    ⟨Stmt.bare_residueList block, CatchClause.bare_residue handlers,
      Stmt.bare_residueBlock finalizer⟩
  | .withStmt _ body _ => (body.bare_residue).getD
  | .labeled _ body => (body.bare_residue).getD
  | .block body => Stmt.bare_residueList body
  | .empty | .exprStmt _ | .funcStmt _ | .returnStmt _ | .throwStmt _ | .breakStmt _ _
  | .continueStmt _ _ | .unsupported _ => trivial

theorem Stmt.bare_residueList : (body : List Stmt) → Stmt.BareList (Stmt.residueList body)
  | [] => trivial
  | s :: rest => (s.bare_residue).toList.append (Stmt.bare_residueList rest)

theorem Stmt.bare_residueOpt : (s : Option Stmt) → Stmt.BareOpt (Stmt.residueOpt s)
  | none => trivial
  | some s => (s.bare_residue).getD

theorem Stmt.bare_residueBlock : (body : Option (List Stmt)) →
    Stmt.BareBlock (Stmt.residueBlock body)
  | none => trivial
  | some body => Stmt.bare_residueList body

theorem SwitchCase.bare_residue : (cases : List SwitchCase) →
    SwitchCase.Bare (SwitchCase.residue cases)
  | [] => trivial
  | ⟨_, body⟩ :: rest => ⟨Stmt.bare_residueList body, SwitchCase.bare_residue rest⟩

theorem CatchClause.bare_residue : (clauses : List CatchClause) →
    CatchClause.Bare (CatchClause.residue clauses)
  | [] => trivial
  | ⟨_, body⟩ :: rest => ⟨Stmt.bare_residueList body, CatchClause.bare_residue rest⟩

end

theorem declares_append {vs vs' : List String} {fs fs' : List Func} (h : vs = [] ∧ fs = [])
    (h' : vs' = [] ∧ fs' = []) : vs ++ vs' = [] ∧ fs ++ fs' = [] := by
  rw [h.1, h.2]
  exact h'

mutual

/-- Bare statements declare no variables and no functions. -/
theorem Stmt.Bare.declares : (s : Stmt) → s.Bare → s.vars = [] ∧ s.funcs = []
  | .ifStmt _ cons alt, h =>
    declares_append (Stmt.Bare.declares cons h.1) (Stmt.BareOpt.declares alt h.2)
  | .whileStmt _ body, h | .doWhileStmt body _, h | .withStmt _ body _, h
  | .labeled _ body, h => Stmt.Bare.declares body h
  | .forStmt .none _ _ body, h | .forStmt (.expr _) _ _ body, h
  | .forInStmt (.target _) _ body, h => Stmt.Bare.declares body h.2
  | .switchStmt _ cases, h => SwitchCase.Bare.declares cases h
  | .tryStmt block handlers finalizer _, h =>
    declares_append (declares_append (Stmt.BareList.declares block h.1)
      (CatchClause.Bare.declares handlers h.2.1)) (Stmt.BareBlock.declares finalizer h.2.2)
  | .block body, h => Stmt.BareList.declares body h
  | .empty, _ | .exprStmt _, _ | .returnStmt _, _ | .throwStmt _, _ | .breakStmt _ _, _
  | .continueStmt _ _, _ | .unsupported _, _ => ⟨rfl, rfl⟩

theorem Stmt.BareList.declares : (body : List Stmt) → Stmt.BareList body →
    Stmt.varsList body = [] ∧ Stmt.funcsList body = []
  | [], _ => ⟨rfl, rfl⟩
  | s :: rest, h => declares_append (Stmt.Bare.declares s h.1) (Stmt.BareList.declares rest h.2)

theorem Stmt.BareOpt.declares : (s : Option Stmt) → Stmt.BareOpt s →
    Stmt.varsOpt s = [] ∧ Stmt.funcsOpt s = []
  | none, _ => ⟨rfl, rfl⟩
  | some s, h => Stmt.Bare.declares s h

theorem Stmt.BareBlock.declares : (body : Option (List Stmt)) → Stmt.BareBlock body →
    Stmt.varsBlock body = [] ∧ Stmt.funcsBlock body = []
  | none, _ => ⟨rfl, rfl⟩
  | some body, h => Stmt.BareList.declares body h

theorem SwitchCase.Bare.declares : (cases : List SwitchCase) → SwitchCase.Bare cases →
    SwitchCase.vars cases = [] ∧ SwitchCase.funcs cases = []
  | [], _ => ⟨rfl, rfl⟩
  | ⟨_, body⟩ :: rest, h =>
    declares_append (Stmt.BareList.declares body h.1) (SwitchCase.Bare.declares rest h.2)

theorem CatchClause.Bare.declares : (clauses : List CatchClause) → CatchClause.Bare clauses →
    CatchClause.vars clauses = [] ∧ CatchClause.funcs clauses = []
  | [], _ => ⟨rfl, rfl⟩
  | ⟨_, body⟩ :: rest, h =>
    declares_append (Stmt.BareList.declares body h.1) (CatchClause.Bare.declares rest h.2)

end

end Bare

section HoistedBody

variable (params : List String) (body : List Stmt)

theorem hoistBody_eq : hoistBody params body =
    declaration (leadingNames params body) ++ (Stmt.funcsList body).map (fun f => .funcStmt f.hoist)
      ++ Stmt.residueList body := by
  rw [hoistBody, leadingDeclaration_eq, Stmt.frontedList body]

theorem Stmt.varsList_append (a b : List Stmt) :
    Stmt.varsList (a ++ b) = Stmt.varsList a ++ Stmt.varsList b := by
  induction a with
  | nil => rfl
  | cons s rest ih => rw [List.cons_append, Stmt.varsList, Stmt.varsList, ih, List.append_assoc]

theorem Stmt.funcsList_append (a b : List Stmt) :
    Stmt.funcsList (a ++ b) = Stmt.funcsList a ++ Stmt.funcsList b := by
  induction a with
  | nil => rfl
  | cons s rest ih => rw [List.cons_append, Stmt.funcsList, Stmt.funcsList, ih, List.append_assoc]

theorem Declarator.names_plain (names : List String) :
    Declarator.names (names.map fun name => ⟨name, none⟩) = names := by
  induction names with
  | nil => rfl
  | cons name rest ih => rw [List.map_cons, Declarator.names, ih]

theorem varsList_declaration (names : List String) : Stmt.varsList (declaration names) = names := by
  cases names with
  | nil => rfl
  | cons name rest =>
    rw [declaration, Stmt.varsList, Stmt.vars, Declarator.names_plain, Stmt.varsList,
      List.append_nil]
    exact List.cons_ne_nil _ _

theorem funcsList_declaration (names : List String) : Stmt.funcsList (declaration names) = [] := by
  cases names <;> rfl

theorem varsList_funcStmts (fs : List Func) : Stmt.varsList (fs.map .funcStmt) = [] := by
  induction fs with
  | nil => rfl
  | cons f rest ih => exact ih

theorem funcsList_funcStmts (fs : List Func) : Stmt.funcsList (fs.map .funcStmt) = fs := by
  induction fs with
  | nil => rfl
  | cons f rest ih => exact congrArg (f :: ·) ih

theorem hoistedFuncStmts (fs : List Func) :
    fs.map (fun f => Stmt.funcStmt f.hoist) = (fs.map Func.hoist).map .funcStmt := by
  rw [List.map_map]
  rfl

/-- A hoisted body declares the variables that it begins with. -/
theorem varsList_hoistBody :
    Stmt.varsList (hoistBody params body) = leadingNames params body := by
  have hrest := (Stmt.BareList.declares _ (Stmt.bare_residueList body)).1
  rw [hoistBody_eq, Stmt.varsList_append, Stmt.varsList_append, varsList_declaration,
    hoistedFuncStmts, varsList_funcStmts, hrest, List.append_nil, List.append_nil]

/-- A hoisted body declares the functions of its source, hoisted. -/
theorem funcsList_hoistBody :
    Stmt.funcsList (hoistBody params body) = (Stmt.funcsList body).map Func.hoist := by
  have hrest := (Stmt.BareList.declares _ (Stmt.bare_residueList body)).2
  rw [hoistBody_eq, Stmt.funcsList_append, Stmt.funcsList_append, funcsList_declaration,
    hoistedFuncStmts, funcsList_funcStmts, hrest, List.append_nil, List.nil_append]

theorem funcNamesList_hoistBody :
    Stmt.funcNamesList (hoistBody params body) = Stmt.funcNamesList body := by
  rw [Stmt.funcNamesList, funcsList_hoistBody, List.filterMap_map]
  refine congrArg (List.filterMap · _) (funext fun f => ?_)
  exact f.name_hoist

theorem funcs_hoistBody :
    (Declarations.ofBody (hoistBody params body)).funcs = nameSet (Stmt.funcNamesList body) := by
  rw [Declarations.ofBody_eq, funcNamesList_hoistBody]

end HoistedBody

end EcmaLua
