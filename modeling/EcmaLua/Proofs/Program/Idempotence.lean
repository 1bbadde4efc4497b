import EcmaLua.Proofs.Program.Declared

/-!
# Hoisting twice

A hoisted body is what hoisting makes of it: its declaration is that of its variables, its
functions stand in front already, and the rest, which declares nothing, leaves itself behind.
-/

namespace EcmaLua

section Bodies

theorem leadingNames_hoistBody (params : List String) (body : List Stmt) :
    leadingNames params (hoistBody params body) = leadingNames params body := by
  have hfirst := firstOccurrences_of_nodup (nodup_leadingNames params body)
  rw [leadingNames, varsList_hoistBody, funcNamesList_hoistBody, hfirst, List.filter_eq_self.mpr]
  intro name hname
  obtain ⟨-, hfuncs, hparams⟩ := mem_leadingNames.mp hname
  simp [hfuncs, hparams]

theorem Stmt.residueList_append (a b : List Stmt) :
    Stmt.residueList (a ++ b) = Stmt.residueList a ++ Stmt.residueList b := by
  induction a with
  | nil => rfl
  | cons s rest ih =>
    rw [List.cons_append, Stmt.residueList, Stmt.residueList, ih, List.append_assoc]

theorem residueList_declaration (names : List String) :
    Stmt.residueList (declaration names) = [] := by
  have hnone : ∀ ns : List String,
      Declarator.assignments (ns.map fun name => ⟨name, none⟩) = [] := by
    intro ns
    induction ns with
    | nil => rfl
    | cons name rest ih => exact ih
  cases names with
  | nil => rfl
  | cons name rest =>
    have hresidue : Stmt.residue (.varStmt .var ((name :: rest).map fun n => ⟨n, none⟩)) =
        none := by
      rw [Stmt.residue, hnone]
      rfl
    exact congrArg (fun s : Option Stmt => s.toList ++ []) hresidue

theorem residueList_funcStmts (fs : List Func) : Stmt.residueList (fs.map .funcStmt) = [] := by
  induction fs with
  | nil => rfl
  | cons f rest ih => exact ih

/-- In a hoisted body only the rest leaves something behind. -/
theorem residueList_hoistBody (params : List String) (body : List Stmt) :
    Stmt.residueList (hoistBody params body) =
      Stmt.residueList (Stmt.residueList body) := by
  rw [hoistBody_eq, Stmt.residueList_append, Stmt.residueList_append, residueList_declaration,
    hoistedFuncStmts, residueList_funcStmts, List.nil_append, List.nil_append]

/-- A body is hoisted once and for all if its functions and its rest are. -/
theorem hoistBody_hoistBody_of (params : List String) {body : List Stmt}
    (hfuncs : ∀ f ∈ Stmt.funcsList body, f.hoist.hoist = f.hoist)
    (hrest : Stmt.residueList (Stmt.residueList body) = Stmt.residueList body) :
    hoistBody params (hoistBody params body) = hoistBody params body := by
  rw [hoistBody_eq params (hoistBody params body), leadingNames_hoistBody, funcsList_hoistBody,
    residueList_hoistBody, hrest, hoistBody_eq params body, List.map_map]
  refine congrArg (_ ++ · ++ _) (List.map_congr_left fun f hf => ?_)
  exact congrArg Stmt.funcStmt (hfuncs f hf)

end Bodies

section Residues

variable {s : Option Stmt} {es : List Expr}

theorem joinAssignments_hoist (h : Expr.hoistList es = es) :
    Expr.hoistOpt (joinAssignments es) = joinAssignments es := by
  match es, h with
  | [], _ => rfl
  | [e], h =>
    have he : e.hoist = e := (List.cons.inj h).1
    exact congrArg some he
  | _ :: _ :: _, h => exact congrArg (fun items => some (Expr.seq items)) h

/-- In the place of a single statement, what was left behind stays. -/
theorem residue_getD (h : s.bind Stmt.residue = s) :
    (s.getD .empty).residue.getD .empty = s.getD .empty := by
  cases s with
  | none => rfl
  | some t => exact congrArg (Option.getD · Stmt.empty) h

theorem residueList_toList (h : s.bind Stmt.residue = s) :
    Stmt.residueList s.toList = s.toList := by
  cases s with
  | none => rfl
  | some t =>
    change t.residue.toList ++ [] = [t]
    rw [show t.residue = some t from h]
    rfl

end Residues

mutual

/-- Hoisting the functions of an expression again changes nothing. -/
theorem Expr.hoist_hoist : (e : Expr) → e.hoist.hoist = e.hoist
  | .ident _ | .this | .lit _ | .unsupported _ => rfl
  | .array items => congrArg Expr.array (Expr.hoist_hoistItems items)
  | .object props => congrArg Expr.object (Property.hoist_hoist props)
  | .func f => congrArg Expr.func (f.hoist_hoist)
  | .unary op arg => congrArg (Expr.unary op) (arg.hoist_hoist)
  | .update op leading arg => congrArg (Expr.update op leading) (arg.hoist_hoist)
  | .binary op left right =>
    congrArg₂ (Expr.binary op) (left.hoist_hoist) (right.hoist_hoist)
  | .logical op left right =>
    congrArg₂ (Expr.logical op) (left.hoist_hoist) (right.hoist_hoist)
  | .assign op target value =>
    congrArg₂ (Expr.assign op) (target.hoist_hoist) (value.hoist_hoist)
  | .cond test cons alt => by
    rw [Expr.hoist, Expr.hoist, test.hoist_hoist, cons.hoist_hoist,
      alt.hoist_hoist]
  | .call callee args =>
    congrArg₂ Expr.call (callee.hoist_hoist) (Expr.hoist_hoistList args)
  | .new callee args => congrArg₂ Expr.new (callee.hoist_hoist) (Expr.hoist_hoistList args)
  | .member object name => congrArg (Expr.member · name) (object.hoist_hoist)
  | .index object key => congrArg₂ Expr.index (object.hoist_hoist) (key.hoist_hoist)
  | .seq items => congrArg Expr.seq (Expr.hoist_hoistList items)

theorem Expr.hoist_hoistList : (es : List Expr) →
    Expr.hoistList (Expr.hoistList es) = Expr.hoistList es
  | [] => rfl
  | e :: rest => congrArg₂ List.cons (e.hoist_hoist) (Expr.hoist_hoistList rest)

theorem Expr.hoist_hoistOpt : (e : Option Expr) →
    Expr.hoistOpt (Expr.hoistOpt e) = Expr.hoistOpt e
  | none => rfl
  | some e => congrArg some (e.hoist_hoist)

theorem Expr.hoist_hoistItems : (items : List (Option Expr)) →
    Expr.hoistItems (Expr.hoistItems items) = Expr.hoistItems items
  | [] => rfl
  | item :: rest => congrArg₂ List.cons (Expr.hoist_hoistOpt item) (Expr.hoist_hoistItems rest)

theorem Property.hoist_hoist : (props : List Property) →
    Property.hoist (Property.hoist props) = Property.hoist props
  | [] => rfl
  | .named key value :: rest =>
    congrArg₂ (fun v ps => Property.named key v :: ps) (value.hoist_hoist)
      (Property.hoist_hoist rest)
  | .computed key value :: rest => by
    rw [Property.hoist, Property.hoist, key.hoist_hoist, value.hoist_hoist,
      Property.hoist_hoist rest]

theorem Func.hoist_hoist : (f : Func) → f.hoist.hoist = f.hoist
  | ⟨name, params, body⟩ =>
    congrArg (Func.mk name params) (hoistBody_hoistBody_of params
      (Stmt.hoist_hoist_funcsList body) (Stmt.residueList_residueList body))

theorem Declarator.hoist_assignments : (decls : List Declarator) →
    Expr.hoistList (Declarator.assignments decls) = Declarator.assignments decls
  | [] => rfl
  | ⟨_, none⟩ :: rest => Declarator.hoist_assignments rest
  | ⟨name, some init⟩ :: rest =>
    congrArg₂ (fun e es => Expr.assign none (.ident name) e :: es) (init.hoist_hoist)
      (Declarator.hoist_assignments rest)

theorem ForInit.residue_residue : (init : ForInit) → init.residue.residue = init.residue
  | .none => rfl
  | .vars _ decls => by
    have hjoin := joinAssignments_hoist (Declarator.hoist_assignments decls)
    rw [ForInit.residue]
    revert hjoin
    cases joinAssignments (Declarator.assignments decls) with
    | none => exact fun _ => rfl
    | some e => exact fun hjoin => congrArg ForInit.expr (Option.some.inj hjoin)
  | .expr e => congrArg ForInit.expr (e.hoist_hoist)

theorem ForInHead.residue_residue : (head : ForInHead) → head.residue.residue = head.residue
  | .var _ _ => rfl
  | .target e => congrArg ForInHead.target (e.hoist_hoist)

/-- What a statement leaves behind leaves itself behind. -/
theorem Stmt.residue_residue : (s : Stmt) → s.residue.bind Stmt.residue = s.residue
  | .empty | .funcStmt _ | .breakStmt _ _ | .continueStmt _ _ | .unsupported _ => rfl
  | .exprStmt e => congrArg (fun e => some (Stmt.exprStmt e)) (e.hoist_hoist)
  | .varStmt _ decls => by
    have hjoin := joinAssignments_hoist (Declarator.hoist_assignments decls)
    rw [Stmt.residue]
    revert hjoin
    cases joinAssignments (Declarator.assignments decls) with
    | none => exact fun _ => rfl
    | some e => exact fun hjoin => congrArg (Option.map Stmt.exprStmt) hjoin
  | .returnStmt arg => congrArg (fun e => some (Stmt.returnStmt e)) (Expr.hoist_hoistOpt arg)
  | .throwStmt arg => congrArg (fun e => some (Stmt.throwStmt e)) (arg.hoist_hoist)
  | .ifStmt test cons alt => by
    have hcons := residue_getD (cons.residue_residue)
    simp only [Stmt.residue, Option.bind_some, test.hoist_hoist, hcons,
      Stmt.residueOpt_residueOpt alt]
  | .whileStmt test body | .doWhileStmt body test => by
    have hbody := residue_getD (body.residue_residue)
    simp only [Stmt.residue, Option.bind_some, test.hoist_hoist, hbody]
  | .forStmt init test update body => by
    have hbody := residue_getD (body.residue_residue)
    simp only [Stmt.residue, Option.bind_some, init.residue_residue,
      Expr.hoist_hoistOpt test, Expr.hoist_hoistOpt update, hbody]
  | .forInStmt head object body => by
    have hbody := residue_getD (body.residue_residue)
    simp only [Stmt.residue, Option.bind_some, head.residue_residue,
      object.hoist_hoist, hbody]
  | .switchStmt discriminant cases => by
    simp only [Stmt.residue, Option.bind_some, discriminant.hoist_hoist,
      SwitchCase.residue_residue cases]
  | .tryStmt block handlers finalizer _ => by
    simp only [Stmt.residue, Option.bind_some, Stmt.residueList_residueList block,
      CatchClause.residue_residue handlers, Stmt.residueBlock_residueBlock finalizer]
  | .withStmt object body _ => by
    have hbody := residue_getD (body.residue_residue)
    simp only [Stmt.residue, Option.bind_some, object.hoist_hoist, hbody]
  | .labeled _ body => by
    have hbody := residue_getD (body.residue_residue)
    simp only [Stmt.residue, Option.bind_some, hbody]
  | .block body =>
    congrArg (fun b => some (Stmt.block b)) (Stmt.residueList_residueList body)

theorem Stmt.residueList_residueList : (body : List Stmt) →
    Stmt.residueList (Stmt.residueList body) = Stmt.residueList body
  | [] => rfl
  | s :: rest => by
    rw [Stmt.residueList, Stmt.residueList_append, residueList_toList (s.residue_residue),
      Stmt.residueList_residueList rest]

theorem Stmt.residueOpt_residueOpt : (s : Option Stmt) →
    Stmt.residueOpt (Stmt.residueOpt s) = Stmt.residueOpt s
  | none => rfl
  | some s => congrArg some (residue_getD (s.residue_residue))

theorem Stmt.residueBlock_residueBlock : (body : Option (List Stmt)) →
    Stmt.residueBlock (Stmt.residueBlock body) = Stmt.residueBlock body
  | none => rfl
  | some body => congrArg some (Stmt.residueList_residueList body)

theorem SwitchCase.residue_residue : (cases : List SwitchCase) →
    SwitchCase.residue (SwitchCase.residue cases) = SwitchCase.residue cases
  | [] => rfl
  | ⟨test, body⟩ :: rest => by
    rw [SwitchCase.residue, SwitchCase.residue, Expr.hoist_hoistOpt test,
      Stmt.residueList_residueList body, SwitchCase.residue_residue rest]

theorem CatchClause.residue_residue : (clauses : List CatchClause) →
    CatchClause.residue (CatchClause.residue clauses) = CatchClause.residue clauses
  | [] => rfl
  | ⟨param, body⟩ :: rest => by
    rw [CatchClause.residue, CatchClause.residue, Stmt.residueList_residueList body,
      CatchClause.residue_residue rest]

/-- The declared functions are hoisted once and for all. -/
theorem Stmt.hoist_hoist_funcs : (s : Stmt) → ∀ f ∈ s.funcs, f.hoist.hoist = f.hoist
  | .funcStmt f => List.forall_mem_singleton.mpr (f.hoist_hoist)
  | .ifStmt _ cons alt =>
    List.forall_mem_append.mpr ⟨cons.hoist_hoist_funcs, Stmt.hoist_hoist_funcsOpt alt⟩
  | .whileStmt _ body | .doWhileStmt body _ | .forStmt _ _ _ body | .forInStmt _ _ body
  | .withStmt _ body _ | .labeled _ body => body.hoist_hoist_funcs
  | .switchStmt _ cases => SwitchCase.hoist_hoist_funcs cases
  | .tryStmt block handlers finalizer _ =>
    List.forall_mem_append.mpr ⟨List.forall_mem_append.mpr ⟨Stmt.hoist_hoist_funcsList block,
      CatchClause.hoist_hoist_funcs handlers⟩, Stmt.hoist_hoist_funcsBlock finalizer⟩
  | .block body => Stmt.hoist_hoist_funcsList body
  | .empty | .exprStmt _ | .varStmt _ _ | .returnStmt _ | .throwStmt _ | .breakStmt _ _
  | .continueStmt _ _ | .unsupported _ => nofun

theorem Stmt.hoist_hoist_funcsList : (body : List Stmt) →
    ∀ f ∈ Stmt.funcsList body, f.hoist.hoist = f.hoist
  | [] => nofun
  | s :: rest =>
    List.forall_mem_append.mpr ⟨s.hoist_hoist_funcs, Stmt.hoist_hoist_funcsList rest⟩

theorem Stmt.hoist_hoist_funcsOpt : (s : Option Stmt) →
    ∀ f ∈ Stmt.funcsOpt s, f.hoist.hoist = f.hoist
  | none => nofun
  | some s => s.hoist_hoist_funcs

theorem Stmt.hoist_hoist_funcsBlock : (body : Option (List Stmt)) →
    ∀ f ∈ Stmt.funcsBlock body, f.hoist.hoist = f.hoist
  | none => nofun
  | some body => Stmt.hoist_hoist_funcsList body

theorem SwitchCase.hoist_hoist_funcs : (cases : List SwitchCase) →
    ∀ f ∈ SwitchCase.funcs cases, f.hoist.hoist = f.hoist
  | [] => nofun
  | ⟨_, body⟩ :: rest =>
    List.forall_mem_append.mpr ⟨Stmt.hoist_hoist_funcsList body,
      SwitchCase.hoist_hoist_funcs rest⟩

theorem CatchClause.hoist_hoist_funcs : (clauses : List CatchClause) →
    ∀ f ∈ CatchClause.funcs clauses, f.hoist.hoist = f.hoist
  | [] => nofun
  | ⟨_, body⟩ :: rest =>
    List.forall_mem_append.mpr ⟨Stmt.hoist_hoist_funcsList body,
      CatchClause.hoist_hoist_funcs rest⟩

end

theorem Program.hoist_hoist (p : Program) : p.hoist.hoist = p.hoist :=
  congrArg Program.mk (hoistBody_hoistBody_of [] (Stmt.hoist_hoist_funcsList p.body)
    (Stmt.residueList_residueList p.body))

/-- Programs and functions that are hoisted stay as they are. -/
theorem hoist_idempotent :
    (∀ p : Program, p.hoist.hoist = p.hoist) ∧ ∀ f : Func, f.hoist.hoist = f.hoist :=
  ⟨Program.hoist_hoist, Func.hoist_hoist⟩

end EcmaLua
