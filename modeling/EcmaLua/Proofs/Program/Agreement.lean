import Mathlib.Data.List.Sort
import Mathlib.Data.String.Basic
import EcmaLua.Proofs.Program.Declared
import EcmaLua.Proofs.Program.Names
import EcmaLua.Proofs.Program.Relocation

/-!
# Declarations before and after hoisting

The names that a hoisted function declares and references, from those of its source. The only new
references are the names of variables with initializers, since an initializer becomes an
assignment.
-/

namespace EcmaLua

open scoped List

section NameSets

theorem pairwise_insertName {name : String} {names : List String}
    (h : names.Pairwise (· < ·)) : (insertName name names).Pairwise (· < ·) := by
  induction names with
  | nil => exact List.pairwise_singleton _ _
  | cons other rest ih =>
    obtain ⟨hother, hrest⟩ := List.pairwise_cons.mp h
    rw [insertName]
    split
    · next hlt =>
        refine List.pairwise_cons.mpr ⟨fun n hn => ?_, h⟩
        rcases List.mem_cons.mp hn with rfl | hn
        · exact hlt
        · exact hlt.trans (hother n hn)
    · next hnot =>
        split
        · exact h
        · next hne =>
            refine List.pairwise_cons.mpr ⟨fun n hn => ?_, ih hrest⟩
            rcases mem_insertName.mp hn with rfl | hn
            · exact lt_of_le_of_ne (not_lt.mp hnot) (Ne.symm hne)
            · exact hother n hn

theorem pairwise_nameSet (names : List String) : (nameSet names).Pairwise (· < ·) := by
  unfold nameSet
  induction names with
  | nil => exact List.Pairwise.nil
  | cons name rest ih => exact pairwise_insertName ih

/-- The set of names depends on the members only. -/
theorem nameSet_congr {a b : List String} (h : ∀ name, name ∈ a ↔ name ∈ b) :
    nameSet a = nameSet b := by
  refine (pairwise_nameSet a).eq_of_mem_iff (pairwise_nameSet b) fun name => ?_
  rw [mem_nameSet, mem_nameSet, h name]

end NameSets

mutual

/-- The variables with initializers inside of an expression, in the functions at any depth. -/
def Expr.initialized : Expr → List String
  | .ident _ | .this | .lit _ | .unsupported _ => []
  | .array items => Expr.initializedItems items
  | .object props => Property.initialized props
  | .func f => f.initialized
  | .unary _ arg => arg.initialized
  | .update _ _ arg => arg.initialized
  | .binary _ left right => left.initialized ++ right.initialized
  | .logical _ left right => left.initialized ++ right.initialized
  | .assign _ target value => target.initialized ++ value.initialized
  | .cond test cons alt => test.initialized ++ cons.initialized ++ alt.initialized
  | .call callee args => callee.initialized ++ Expr.initializedList args
  | .new callee args => callee.initialized ++ Expr.initializedList args
  | .member object _ => object.initialized
  | .index object key => object.initialized ++ key.initialized
  | .seq items => Expr.initializedList items

def Expr.initializedList : List Expr → List String
  | [] => []
  | e :: rest => e.initialized ++ Expr.initializedList rest

def Expr.initializedOpt : Option Expr → List String
  | none => []
  | some e => e.initialized

def Expr.initializedItems : List (Option Expr) → List String
  | [] => []
  | item :: rest => Expr.initializedOpt item ++ Expr.initializedItems rest

def Property.initialized : List Property → List String
  | [] => []
  | .named _ value :: rest => value.initialized ++ Property.initialized rest
  | .computed key value :: rest =>
    key.initialized ++ value.initialized ++ Property.initialized rest

/-- The variables with initializers in a function's body, nested functions included. -/
def Func.initialized : Func → List String
  | ⟨_, _, body⟩ => Stmt.initializedList body

def Declarator.initialized : List Declarator → List String
  | [] => []
  | ⟨_, none⟩ :: rest => Declarator.initialized rest
  | ⟨name, some init⟩ :: rest => name :: init.initialized ++ Declarator.initialized rest

def ForInit.initialized : ForInit → List String
  | .none => []
  | .vars _ decls => Declarator.initialized decls
  | .expr e => e.initialized

def ForInHead.initialized : ForInHead → List String
  | .var _ _ => []
  | .target e => e.initialized

/-- The variables with initializers in a statement, nested functions included. -/
def Stmt.initialized : Stmt → List String
  | .empty | .breakStmt _ _ | .continueStmt _ _ | .unsupported _ => []
  | .exprStmt e => e.initialized
  | .varStmt _ decls => Declarator.initialized decls
  | .funcStmt f => f.initialized
  | .returnStmt arg => Expr.initializedOpt arg
  | .throwStmt arg => arg.initialized
  | .ifStmt test cons alt => test.initialized ++ cons.initialized ++ Stmt.initializedOpt alt
  | .whileStmt test body => test.initialized ++ body.initialized
  | .doWhileStmt body test => body.initialized ++ test.initialized
  | .forStmt init test update body =>
    init.initialized ++ Expr.initializedOpt test ++ Expr.initializedOpt update
      ++ body.initialized
  | .forInStmt head object body => head.initialized ++ object.initialized ++ body.initialized
  | .switchStmt discriminant cases => discriminant.initialized ++ SwitchCase.initialized cases
  | .tryStmt block handlers finalizer _ =>
    Stmt.initializedList block ++ CatchClause.initialized handlers
      ++ Stmt.initializedBlock finalizer
  | .withStmt object body _ => object.initialized ++ body.initialized
  | .labeled _ body => body.initialized
  | .block body => Stmt.initializedList body

def Stmt.initializedList : List Stmt → List String
  | [] => []
  | s :: rest => s.initialized ++ Stmt.initializedList rest

def Stmt.initializedOpt : Option Stmt → List String
  | none => []
  | some s => s.initialized

def Stmt.initializedBlock : Option (List Stmt) → List String
  | none => []
  | some body => Stmt.initializedList body

def SwitchCase.initialized : List SwitchCase → List String
  | [] => []
  | ⟨test, body⟩ :: rest =>
    Expr.initializedOpt test ++ Stmt.initializedList body ++ SwitchCase.initialized rest

def CatchClause.initialized : List CatchClause → List String
  | [] => []
  | ⟨_, body⟩ :: rest => Stmt.initializedList body ++ CatchClause.initialized rest

end

namespace Fragment

/-- The variable that the fragment itself gives its first value. -/
def initializes : Fragment → List String
  | .decl ⟨name, some _⟩ => [name]
  | _ => []

def initialized : Fragment → List String
  | .expr e => e.initialized
  | .prop (.named _ value) => value.initialized
  | .prop (.computed key value) => key.initialized ++ value.initialized
  | .func f => f.initialized
  | .decl ⟨_, none⟩ => []
  | .decl ⟨name, some value⟩ => name :: value.initialized
  | .clause c => Stmt.initializedList c.body
  | .case c => Expr.initializedOpt c.test ++ Stmt.initializedList c.body
  | .init i => i.initialized
  | .head i => i.initialized
  | .stmt s => s.initialized

theorem reads_initialized : Reads true initializes initialized := by
  have hexprs : Expr.initializedList = _ := eq_flatMap rfl fun _ _ => rfl
  have hexpr : Expr.initializedOpt = _ := eq_flatMapOpt (g := Expr.initialized) rfl fun _ => rfl
  have hitems : Expr.initializedItems = _ := eq_flatMap rfl fun _ _ => rfl
  have hprops : Property.initialized = List.flatMap fun p => initialized (.prop p) :=
    eq_flatMap rfl fun p _ => by cases p <;> simp [Property.initialized, initialized]
  have hdecls : Declarator.initialized = List.flatMap fun d => initialized (.decl d) :=
    eq_flatMap rfl fun d _ => by
      obtain ⟨name, _ | e⟩ := d <;> simp [Declarator.initialized, initialized]
  have hstmts : Stmt.initializedList = _ := eq_flatMap rfl fun _ _ => rfl
  have hstmt : Stmt.initializedOpt = _ := eq_flatMapOpt (g := Stmt.initialized) rfl fun _ => rfl
  have hblock : Stmt.initializedBlock = _ :=
    eq_flatMapOpt (g := Stmt.initializedList) rfl fun _ => rfl
  have hcases : SwitchCase.initialized = List.flatMap fun c => initialized (.case c) :=
    eq_flatMap rfl fun c _ => by cases c; rfl
  have hclauses : CatchClause.initialized = List.flatMap fun c => initialized (.clause c) :=
    eq_flatMap rfl fun c _ => by cases c; rfl
  intro p
  rcases p with x | x | x | x | x | x | x | x | x <;> cases x
  case decl.mk name value => cases value <;> simp [initialized, initializes, parts]
  all_goals
    simp [*, initialized, initializes, parts, Expr.initialized, Func.initialized,
      ForInit.initialized, ForInHead.initialized, Stmt.initialized, List.flatMap_assoc,
      List.flatMap_map]

/-- Hoisting keeps what is mentioned, and an initializer becomes a mention of its variable. -/
theorem moves_mentions :
    Moves (M := Multiset String) (fun p => p.mentions) fun p => p.mentions + p.initializes where
  expr e := by cases e <;> rfl
  func _ := rfl
  initializer _ _ := rfl
  head _ _ := rfl
  stmt _ _ _ _ := rfl
  funcStmt _ := rfl
  newBlank := by rintro _ ⟨⟩ <;> rfl
  oldBlank := by rintro _ ⟨⟩ <;> rfl

end Fragment

theorem Func.refs_hoist (f : Func) : f.hoist.refs ~ f.refs ++ f.initialized := by
  rw [← Multiset.coe_eq_coe, ← Multiset.coe_add]
  have hnew := Fragment.reads_refs.total (.func f.hoist)
  rw [Fragment.moves_mentions.total_func, Fragment.total_add, ← Fragment.reads_refs.total,
    ← Fragment.reads_initialized.total] at hnew
  exact hnew

/-- The names in the declaration that a body begins with, if it begins with one. -/
def declaredFirst : List Stmt → List String
  | .varStmt _ decls :: _ => Declarator.names decls
  | _ => []

theorem declaredFirst_of_bare {body : List Stmt} (h : Stmt.BareList body) :
    declaredFirst body = [] := by
  cases body with
  | nil => rfl
  | cons s rest =>
    cases s with
    | varStmt kind decls => exact absurd h.1 id
    | _ => rfl

theorem declaredFirst_hoistBody (params : List String) (body : List Stmt) :
    declaredFirst (hoistBody params body) = leadingNames params body := by
  rw [hoistBody_eq]
  cases leadingNames params body with
  | nil =>
    cases Stmt.funcsList body with
    | nil => exact declaredFirst_of_bare (Stmt.bare_residueList body)
    | cons f rest => rfl
  | cons name rest => exact Declarator.names_plain (name :: rest)

/-- What a hoisted function declares and references. -/
theorem Func.ofBody_hoist (f : Func) :
    (Declarations.ofBody f.hoist.body).funcs = (Declarations.ofBody f.body).funcs ∧
    (Declarations.ofBody f.hoist.body).vars =
      (Declarations.ofBody f.body).vars.filter
        (fun name => name ∉ (Declarations.ofBody f.body).funcs ∧ name ∉ f.params) ∧
    (declaredFirst f.hoist.body).Nodup ∧
    (∀ name, name ∈ declaredFirst f.hoist.body ↔
      name ∈ (Declarations.ofBody f.hoist.body).vars) ∧
    (Declarations.ofBody f.hoist.body).referenced =
      nameSet ((Declarations.ofBody f.body).referenced ++ Stmt.initializedList f.body) := by
  obtain ⟨fname, params, body⟩ := f
  have hbody : (Func.mk fname params body).hoist.body = hoistBody params body := rfl
  rw [hbody, funcs_hoistBody]
  simp only [Declarations.ofBody_eq]
  refine ⟨trivial, ?_, ?_, ?_, ?_⟩
  · refine (pairwise_nameSet _).eq_of_mem_iff ((pairwise_nameSet _).filter _) fun name => ?_
    simp only [List.mem_filter, mem_nameSet, decide_eq_true_eq,
      varsList_hoistBody, mem_leadingNames]
  · rw [declaredFirst_hoistBody]
    exact nodup_leadingNames params body
  · intro name
    simp only [mem_nameSet, varsList_hoistBody, declaredFirst_hoistBody]
  · refine nameSet_congr fun name => ?_
    have hperm := Func.refs_hoist ⟨fname, params, body⟩
    simp only [List.mem_append, mem_nameSet]
    exact hperm.mem_iff.trans List.mem_append

end EcmaLua
