import Mathlib.Tactic.Abel
import EcmaLua.Proofs.Program.Fragments
import EcmaLua.Program.Hoisting

/-!
# Where hoisting puts the fragments of a program

Every fragment of a program is put somewhere by hoisting, and nothing else comes to be than
declarations without values, empty statements, and the assignments that initializers become. What
there is at the fragments of the hoisted program adds up to what there was before.
-/

namespace EcmaLua

open scoped List

namespace Fragment

/-- What hoisting makes of a fragment: what is left in its place, and the functions it declares. -/
def hoisted : Fragment → List Fragment
  | .expr e => [.expr e.hoist]
  | .prop (.named key value) => [.prop (.named key value.hoist)]
  | .prop (.computed key value) => [.prop (.computed key.hoist value.hoist)]
  | .func f => [.func f.hoist]
  | .decl ⟨_, none⟩ => []
  | .decl ⟨name, some e⟩ => [.expr (.assign none (.ident name) e.hoist)]
  | .clause ⟨param, body⟩ =>
    .clause ⟨param, Stmt.residueList body⟩ :: (Stmt.hoistedFuncsList body).map .stmt
  | .case ⟨test, body⟩ => .case ⟨Expr.hoistOpt test, Stmt.residueList body⟩ ::
    (Stmt.hoistedFuncsList body).map .stmt
  | .init i => [.init i.residue]
  | .head h => [.head h.residue]
  | .stmt s => s.residue.toList.map .stmt ++ s.hoistedFuncs.map .stmt

/-- Fragments that stand for nothing but their parts. -/
inductive Blank : Fragment → Prop
  | seq (es : List Expr) : Blank (.expr (.seq es))
  | prop (p : Property) : Blank (.prop p)
  | decl (name : String) : Blank (.decl ⟨name, none⟩)
  | clause (c : CatchClause) : Blank (.clause c)
  | case (c : SwitchCase) : Blank (.case c)
  | init (i : ForInit) : Blank (.init i)
  | target (e : Expr) : Blank (.head (.target e))
  | empty : Blank (.stmt .empty)
  | exprStmt (e : Expr) : Blank (.stmt (.exprStmt e))
  | varStmt (kind : VarKind) (decls : List Declarator) : Blank (.stmt (.varStmt kind decls))

variable {M : Type} [AddCommMonoid M]

/-- What there is at the fragments that hoisting makes is what there was at the fragment. -/
structure Moves (new old : Fragment → M) : Prop where
  expr : ∀ e, new (.expr e.hoist) = old (.expr e)
  func : ∀ f, new (.func f.hoist) = old (.func f)
  initializer : ∀ name e, old (.decl ⟨name, some e⟩) =
    new (.expr (.assign none (.ident name) e.hoist)) + new (.expr (.ident name))
  head : ∀ kind name, old (.head (.var kind name)) = new (.expr (.ident name))
  stmt : ∀ s r, s.residue = some r → (∀ kind decls, s ≠ .varStmt kind decls) →
    new (.stmt r) = old (.stmt s)
  funcStmt : ∀ f, new (.stmt (.funcStmt f.hoist)) = old (.stmt (.funcStmt f))
  newBlank : ∀ p, Blank p → new p = 0
  oldBlank : ∀ p, Blank p → old p = 0

variable {new old : Fragment → M}

section Totals

variable (new)

/-- What there is at the fragments that hoisting makes of a fragment. -/
def after (p : Fragment) : M := (p.hoisted.map (total true new)).sum

theorem total_true (p : Fragment) :
    p.total true new = new p + (p.parts.map (total true new)).sum := by
  simp only [total_eq p, isOpen_true, if_true]

@[simp]
theorem after_expr (e : Expr) : after new (.expr e) = total true new (.expr e.hoist) := by
  simp [after, hoisted]

@[simp]
theorem after_func (f : Func) : after new (.func f) = total true new (.func f.hoist) := by
  simp [after, hoisted]

@[simp]
theorem after_init (i : ForInit) : after new (.init i) = total true new (.init i.residue) := by
  simp [after, hoisted]

@[simp]
theorem after_head (i : ForInHead) : after new (.head i) = total true new (.head i.residue) := by
  simp [after, hoisted]

theorem sum_hoistList (es : List Expr) :
    ((Expr.hoistList es).map fun e => total true new (.expr e)).sum =
      (es.map fun e => after new (.expr e)).sum := by
  induction es with
  | nil => rfl
  | cons e rest ih => simp [Expr.hoistList, ih]

theorem sum_hoistOpt (e : Option Expr) :
    ((Expr.hoistOpt e).toList.map fun e => total true new (.expr e)).sum =
      (e.toList.map fun e => after new (.expr e)).sum := by
  cases e <;> simp [Expr.hoistOpt]

theorem sum_hoistItems (items : List (Option Expr)) :
    (((Expr.hoistItems items).flatMap fun e => e.toList.map .expr).map (total true new)).sum =
      ((items.flatMap fun e => e.toList.map .expr).map (after new)).sum := by
  induction items with
  | nil => rfl
  | cons item rest ih => cases item <;> simp [Expr.hoistItems, Expr.hoistOpt, ih]

theorem sum_hoistProps (props : List Property) :
    ((Property.hoist props).map fun p => total true new (.prop p)).sum =
      (props.map fun p => after new (.prop p)).sum := by
  induction props with
  | nil => rfl
  | cons p rest ih => cases p <;> simp [Property.hoist, after, hoisted, ih]

theorem sum_assignments (decls : List Declarator) :
    ((Declarator.assignments decls).map fun e => total true new (.expr e)).sum =
      (decls.map fun d => after new (.decl d)).sum := by
  induction decls with
  | nil => rfl
  | cons d rest ih =>
    obtain ⟨name, _ | e⟩ := d <;> simp [Declarator.assignments, after, hoisted, ih]

theorem after_stmt (s : Stmt) : after new (.stmt s) =
    (s.residue.toList.map fun s => total true new (.stmt s)).sum +
      (s.hoistedFuncs.map fun s => total true new (.stmt s)).sum := by
  simp [after, hoisted, Function.comp_def]

theorem after_case (test : Option Expr) (body : List Stmt) : after new (.case ⟨test, body⟩) =
    total true new (.case ⟨Expr.hoistOpt test, Stmt.residueList body⟩) +
      ((Stmt.hoistedFuncsList body).map fun s => total true new (.stmt s)).sum := by
  simp [after, hoisted, Function.comp_def]

theorem after_clause (param : Option String) (body : List Stmt) :
    after new (.clause ⟨param, body⟩) = total true new (.clause ⟨param, Stmt.residueList body⟩) +
      ((Stmt.hoistedFuncsList body).map fun s => total true new (.stmt s)).sum := by
  simp [after, hoisted, Function.comp_def]

/-- The statements of a body go to what is left of it and to the functions it declares. -/
theorem sum_split (body : List Stmt) :
    ((Stmt.residueList body).map fun s => total true new (.stmt s)).sum +
        ((Stmt.hoistedFuncsList body).map fun s => total true new (.stmt s)).sum =
      (body.map fun s => after new (.stmt s)).sum := by
  induction body with
  | nil => simp [Stmt.residueList, Stmt.hoistedFuncsList]
  | cons s rest ih =>
    simp only [Stmt.residueList, Stmt.hoistedFuncsList, List.map_append, List.sum_append,
      List.map_cons, List.sum_cons, ← ih, after_stmt new s]
    abel

theorem sum_splitBlock (body : Option (List Stmt)) :
    (((Stmt.residueBlock body).toList.flatMap (List.map Fragment.stmt)).map (total true new)).sum +
        ((Stmt.hoistedFuncsBlock body).map fun s => total true new (.stmt s)).sum =
      ((body.toList.flatMap (List.map Fragment.stmt)).map (after new)).sum := by
  cases body with
  | none => simp [Stmt.residueBlock, Stmt.hoistedFuncsBlock]
  | some body => simp [Stmt.residueBlock, Stmt.hoistedFuncsBlock, ← sum_split, Function.comp_def]

theorem sum_splitCases (cases : List SwitchCase) :
    ((SwitchCase.residue cases).map fun c => total true new (.case c)).sum +
        ((SwitchCase.hoistedFuncs cases).map fun s => total true new (.stmt s)).sum =
      (cases.map fun c => after new (.case c)).sum := by
  induction cases with
  | nil => simp [SwitchCase.residue, SwitchCase.hoistedFuncs]
  | cons c rest ih =>
    obtain ⟨test, body⟩ := c
    simp only [SwitchCase.residue, SwitchCase.hoistedFuncs, List.map_append, List.sum_append,
      List.map_cons, List.sum_cons, ← ih, after_case]
    abel

theorem sum_splitClauses (clauses : List CatchClause) :
    ((CatchClause.residue clauses).map fun c => total true new (.clause c)).sum +
        ((CatchClause.hoistedFuncs clauses).map fun s => total true new (.stmt s)).sum =
      (clauses.map fun c => after new (.clause c)).sum := by
  induction clauses with
  | nil => simp [CatchClause.residue, CatchClause.hoistedFuncs]
  | cons c rest ih =>
    obtain ⟨param, body⟩ := c
    simp only [CatchClause.residue, CatchClause.hoistedFuncs, List.map_append, List.sum_append,
      List.map_cons, List.sum_cons, ← ih, after_clause]
    abel

end Totals

/-- What there is in the fragments that hoisting makes is what there was at the fragment itself and
what there is in those that hoisting makes of its parts. -/
def Moved (new old : Fragment → M) (p : Fragment) : Prop :=
  after new p = old p + (p.parts.map (after new)).sum

namespace Moves

variable (h : Moves new old)
include h

/-- An empty statement in the place of one that is gone adds nothing. -/
theorem sum_getD (s : Stmt) : total true new (.stmt (s.residue.getD .empty)) +
    (s.hoistedFuncs.map fun s => total true new (.stmt s)).sum = after new (.stmt s) := by
  rw [after_stmt]
  cases s.residue with
  | none => simp [total_true new (.stmt .empty), parts, h.newBlank _ .empty]
  | some r => simp

theorem sum_residueOpt (s : Option Stmt) :
    ((Stmt.residueOpt s).toList.map fun s => total true new (.stmt s)).sum +
        ((Stmt.hoistedFuncsOpt s).map fun s => total true new (.stmt s)).sum =
      (s.toList.map fun s => after new (.stmt s)).sum := by
  cases s with
  | none => simp [Stmt.residueOpt, Stmt.hoistedFuncsOpt]
  | some s => simp [Stmt.residueOpt, Stmt.hoistedFuncsOpt, h.sum_getD]

theorem sum_leadingDeclaration (params vars : List String) (funcs : List Stmt) :
    ((leadingDeclaration params vars funcs).map fun s => total true new (.stmt s)).sum = 0 := by
  have hdecl (name : String) : total true new (.decl ⟨name, none⟩) = 0 := by
    simp [total_true new (.decl _), parts, h.newBlank _ (.decl name)]
  unfold leadingDeclaration
  dsimp only
  split
  · rfl
  · simp [total_true new (.stmt _), parts, h.newBlank _ (.varStmt ..), Function.comp_def,
      hdecl]

/-- The statements of a body are all in the body that hoisting makes of it. -/
theorem sum_hoistBody (params : List String) (body : List Stmt) :
    ((hoistBody params body).map fun s => total true new (.stmt s)).sum =
      (body.map fun s => after new (.stmt s)).sum := by
  simp only [hoistBody, List.map_append, List.sum_append, h.sum_leadingDeclaration, zero_add,
    ← sum_split]
  abel

theorem sum_joinAssignments (es : List Expr) :
    ((joinAssignments es).toList.map fun e => total true new (.expr e)).sum =
      (es.map fun e => total true new (.expr e)).sum := by
  rcases es with - | ⟨e, - | ⟨e', rest⟩⟩
  · rfl
  · rfl
  · simp [joinAssignments, total_true new (.expr (.seq _)), parts, h.newBlank _ (.seq _),
      Function.comp_def]

/-- The initializers of a declaration are moved into the assignments they become. -/
theorem sum_initializers (decls : List Declarator) :
    ((joinAssignments (Declarator.assignments decls)).toList.map fun e =>
      total true new (.expr e)).sum = (decls.map fun d => after new (.decl d)).sum := by
  rw [h.sum_joinAssignments, sum_assignments]

theorem moved_expr (e : Expr) : Moved new old (.expr e) := by
  have hroot : after new (.expr e) =
      old (.expr e) + ((Fragment.expr e.hoist).parts.map (total true new)).sum := by
    rw [← h.expr, ← total_true, after_expr]
  rw [Moved, hroot]
  cases e
  case array items => simp only [Expr.hoist, parts, sum_hoistItems]
  case object props => simp [Expr.hoist, parts, Function.comp_def, sum_hoistProps]
  all_goals simp [Expr.hoist, parts, Function.comp_def, sum_hoistList]

theorem moved_init (i : ForInit) : Moved new old (.init i) := by
  have hroot : after new (.init i) =
      ((Fragment.init i.residue).parts.map (total true new)).sum := by
    rw [after_init, total_true, h.newBlank _ (.init _), zero_add]
  rw [Moved, hroot, h.oldBlank _ (.init i), zero_add]
  cases i with
  | none => rfl
  | vars kind decls =>
    simp only [ForInit.residue, parts, List.map_map, Function.comp_def, ← h.sum_initializers]
    cases joinAssignments (Declarator.assignments decls) <;> rfl
  | expr e => simp [ForInit.residue, parts]

theorem moved_head (i : ForInHead) : Moved new old (.head i) := by
  rw [Moved, after_head, total_true]
  cases i with
  | var kind name =>
    simp [ForInHead.residue, parts, h.head, h.newBlank _ (.target _),
      total_true new (.expr (.ident name))]
  | target e =>
    simp [ForInHead.residue, parts, h.newBlank _ (.target _),
      h.oldBlank _ (.target _)]

/-- A statement that leaves one of its kind behind is moved if its parts are. -/
theorem moved_kept {s r : Stmt} (hr : s.residue = some r)
    (hvar : ∀ kind decls, s ≠ .varStmt kind decls)
    (hparts : ((Fragment.stmt r).parts.map (total true new)).sum +
      (s.hoistedFuncs.map fun s => total true new (.stmt s)).sum =
        ((Fragment.stmt s).parts.map (after new)).sum) :
    Moved new old (.stmt s) := by
  rw [Moved, after_stmt, hr, ← hparts, ← h.stmt s r hr hvar]
  simp [total_true new (.stmt r), add_assoc]

theorem moved_stmt (s : Stmt) : Moved new old (.stmt s) := by
  cases s with
  | varStmt kind decls =>
    rw [Moved, after_stmt, h.oldBlank _ (.varStmt ..)]
    simp only [Stmt.residue, Stmt.hoistedFuncs, parts, List.map_map, Function.comp_def,
      ← h.sum_initializers]
    cases joinAssignments (Declarator.assignments decls) <;>
      simp [total_true new (.stmt (.exprStmt _)), parts, h.newBlank _ (.exprStmt _)]
  | funcStmt f =>
    simp [Moved, after_stmt, Stmt.residue, Stmt.hoistedFuncs, total_true new (.stmt _), h.funcStmt,
      parts]
  | empty | exprStmt e | throwStmt e | breakStmt label span | continueStmt label span
  | unsupported node => exact h.moved_kept rfl (by simp) (by simp [parts, Stmt.hoistedFuncs])
  | returnStmt arg =>
    exact h.moved_kept rfl (by simp)
      (by simp [parts, Stmt.hoistedFuncs, Function.comp_def, sum_hoistOpt])
  | ifStmt test cons alt =>
    refine h.moved_kept rfl (by simp) ?_
    simp [parts, Stmt.hoistedFuncs, ← h.sum_residueOpt alt, ← h.sum_getD cons, Function.comp_def]
    abel
  | whileStmt test body | withStmt test body span | labeled label body =>
    refine h.moved_kept rfl (by simp) ?_
    simp [parts, Stmt.hoistedFuncs, ← h.sum_getD body, add_assoc]
  | doWhileStmt body test =>
    refine h.moved_kept rfl (by simp) ?_
    simp [parts, Stmt.hoistedFuncs, ← h.sum_getD body]
    abel
  | forStmt start test update body =>
    refine h.moved_kept rfl (by simp) ?_
    simp [parts, Stmt.hoistedFuncs, ← h.sum_getD body, Function.comp_def, sum_hoistOpt,
      add_assoc]
  | forInStmt head object body =>
    refine h.moved_kept rfl (by simp) ?_
    simp [parts, Stmt.hoistedFuncs, ← h.sum_getD body, add_assoc]
  | switchStmt discriminant cases =>
    refine h.moved_kept rfl (by simp) ?_
    simp [parts, Stmt.hoistedFuncs, ← sum_splitCases, Function.comp_def, add_assoc]
  | tryStmt block handlers finalizer span =>
    refine h.moved_kept rfl (by simp) ?_
    simp only [parts, Stmt.hoistedFuncs, ← sum_splitClauses, ← sum_split, ← sum_splitBlock,
      List.map_append, List.sum_append, List.map_map, Function.comp_def]
    abel
  | block body =>
    refine h.moved_kept rfl (by simp) ?_
    simp only [parts, Stmt.hoistedFuncs, ← sum_split, List.map_map, Function.comp_def]

theorem moved_prop (p : Property) : Moved new old (.prop p) := by
  cases p <;> simp [Moved, after, hoisted, parts, total_true new (.prop _),
    h.newBlank _ (.prop _), h.oldBlank _ (.prop _)]

theorem moved_func (f : Func) : Moved new old (.func f) := by
  have hbody : f.hoist.body = hoistBody f.params f.body := by
    obtain ⟨name, params, body⟩ := f
    rfl
  rw [Moved, after_func, total_true, h.func]
  simp only [parts, hbody, List.map_map, Function.comp_def, h.sum_hoistBody]

theorem moved_decl (d : Declarator) : Moved new old (.decl d) := by
  obtain ⟨name, _ | e⟩ := d
  · simp [Moved, after, hoisted, parts, h.oldBlank _ (.decl name)]
  · simp [Moved, after, hoisted, parts, h.initializer, total_true new (.expr (.assign ..)),
      total_true new (.expr (.ident _)), add_assoc]

theorem moved_clause (c : CatchClause) : Moved new old (.clause c) := by
  obtain ⟨param, body⟩ := c
  rw [Moved, after_clause, total_true, h.newBlank _ (.clause _), h.oldBlank _ (.clause _)]
  simp only [parts, List.map_map, Function.comp_def, ← sum_split, zero_add]

theorem moved_case (c : SwitchCase) : Moved new old (.case c) := by
  obtain ⟨test, body⟩ := c
  rw [Moved, after_case, total_true, h.newBlank _ (.case _), h.oldBlank _ (.case _)]
  simp only [parts, List.map_append, List.sum_append, List.map_map, Function.comp_def, ← sum_split,
    sum_hoistOpt, zero_add, add_assoc]

/-- Hoisting moves every fragment. -/
theorem moved (p : Fragment) : Moved new old p := by
  cases p with
  | expr e => exact h.moved_expr e
  | prop p => exact h.moved_prop p
  | func f => exact h.moved_func f
  | decl d => exact h.moved_decl d
  | clause c => exact h.moved_clause c
  | case c => exact h.moved_case c
  | init i => exact h.moved_init i
  | head i => exact h.moved_head i
  | stmt s => exact h.moved_stmt s

/-- What there is in the fragments that hoisting makes is what there was in the fragment. -/
theorem after_eq_total (p : Fragment) : after new p = p.total true old := by
  refine eq_total (fun p => (h.moved p).trans ?_) p
  simp only [isOpen_true, if_true]

theorem total_func (f : Func) : total true new (.func f.hoist) = total true old (.func f) := by
  rw [← after_func, h.after_eq_total]

end Moves

/-- Hoisting moves what is read of a function, up to order. -/
theorem Reads.perm_hoist {α : Type} {own read : Fragment → List α} {f : α → α}
    (hread : Reads true own read)
    (hmoves : Moves (M := Multiset α) (fun p => own p) fun p => (own p).map f) (g : Func) :
    read (.func g.hoist) ~ (read (.func g)).map f := by
  rw [← Multiset.coe_eq_coe, hread.total, hmoves.total_func, ← (hread.map f).total]

end Fragment

end EcmaLua
