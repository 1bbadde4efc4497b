import EcmaLua.Proofs.Program.Names
import EcmaLua.Proofs.Program.Relocation

/-!
# Programs under rules

A rule for each kind of text in a program, and one for the places that it writes to. A tree obeys
the rules when all of its parts do, and hoisting a program keeps it so.
-/

namespace EcmaLua

/-- What is asked of the parts of a program. -/
structure Rules where
  /-- identifiers and labels -/
  name : String → Prop
  /-- the kinds of the constructs outside the subset -/
  kind : String → Prop
  /-- what an assignment, an update or the head of a loop writes to -/
  place : Expr → Prop

namespace Rules

def NameOpt (r : Rules) : Option String → Prop
  | none => True
  | some name => r.name name

end Rules

mutual

def Expr.Obeys (r : Rules) : Expr → Prop
  | .ident name => r.name name
  | .this | .lit _ => True
  | .array items => Expr.ObeysItems r items
  | .object props => Property.Obeys r props
  | .func f => f.Obeys r
  | .unary _ arg => arg.Obeys r
  | .update _ _ arg => r.place arg ∧ arg.Obeys r
  | .binary _ left right | .logical _ left right => left.Obeys r ∧ right.Obeys r
  | .assign _ target value => r.place target ∧ target.Obeys r ∧ value.Obeys r
  | .cond test cons alt => test.Obeys r ∧ cons.Obeys r ∧ alt.Obeys r
  | .call callee args | .new callee args => callee.Obeys r ∧ Expr.ObeysList r args
  | .member object _ => object.Obeys r
  | .index object key => object.Obeys r ∧ key.Obeys r
  | .seq items => Expr.ObeysList r items
  | .unsupported node => r.kind node.kind

def Expr.ObeysList (r : Rules) : List Expr → Prop
  | [] => True
  | e :: rest => e.Obeys r ∧ Expr.ObeysList r rest

def Expr.ObeysOpt (r : Rules) : Option Expr → Prop
  | none => True
  | some e => e.Obeys r

def Expr.ObeysItems (r : Rules) : List (Option Expr) → Prop
  | [] => True
  | item :: rest => Expr.ObeysOpt r item ∧ Expr.ObeysItems r rest

def Property.Obeys (r : Rules) : List Property → Prop
  | [] => True
  | .named _ value :: rest => value.Obeys r ∧ Property.Obeys r rest
  | .computed key value :: rest => key.Obeys r ∧ value.Obeys r ∧ Property.Obeys r rest

def Func.Obeys (r : Rules) : Func → Prop
  | ⟨name, params, body⟩ => r.NameOpt name ∧ (∀ p ∈ params, r.name p) ∧ Stmt.ObeysList r body

def Declarator.Obeys (r : Rules) : List Declarator → Prop
  | [] => True
  | ⟨name, init⟩ :: rest => r.name name ∧ Expr.ObeysOpt r init ∧ Declarator.Obeys r rest

def ForInit.Obeys (r : Rules) : ForInit → Prop
  | .none => True
  | .vars _ decls => Declarator.Obeys r decls
  | .expr e => e.Obeys r

def ForInHead.Obeys (r : Rules) : ForInHead → Prop
  | .var _ name => r.name name
  | .target e => r.place e ∧ e.Obeys r

def Stmt.Obeys (r : Rules) : Stmt → Prop
  | .empty => True
  | .exprStmt e => e.Obeys r
  | .varStmt _ decls => Declarator.Obeys r decls
  | .funcStmt f => f.Obeys r
  | .returnStmt arg => Expr.ObeysOpt r arg
  | .throwStmt arg => arg.Obeys r
  | .breakStmt label _ | .continueStmt label _ => r.NameOpt label
  | .ifStmt test cons alt => test.Obeys r ∧ cons.Obeys r ∧ Stmt.ObeysOpt r alt
  | .whileStmt test body => test.Obeys r ∧ body.Obeys r
  | .doWhileStmt body test => body.Obeys r ∧ test.Obeys r
  | .forStmt init test update body =>
    init.Obeys r ∧ Expr.ObeysOpt r test ∧ Expr.ObeysOpt r update ∧ body.Obeys r
  | .forInStmt head object body => head.Obeys r ∧ object.Obeys r ∧ body.Obeys r
  | .switchStmt discriminant cases => discriminant.Obeys r ∧ SwitchCase.Obeys r cases
  | .tryStmt block handlers finalizer _ =>
    Stmt.ObeysList r block ∧ CatchClause.Obeys r handlers ∧ Stmt.ObeysBlock r finalizer
  | .withStmt object body _ => object.Obeys r ∧ body.Obeys r
  | .labeled label body => r.name label ∧ body.Obeys r
  | .block body => Stmt.ObeysList r body
  | .unsupported node => r.kind node.kind

def Stmt.ObeysList (r : Rules) : List Stmt → Prop
  | [] => True
  | s :: rest => s.Obeys r ∧ Stmt.ObeysList r rest

def Stmt.ObeysOpt (r : Rules) : Option Stmt → Prop
  | none => True
  | some s => s.Obeys r

def Stmt.ObeysBlock (r : Rules) : Option (List Stmt) → Prop
  | none => True
  | some body => Stmt.ObeysList r body

def SwitchCase.Obeys (r : Rules) : List SwitchCase → Prop
  | [] => True
  | ⟨test, body⟩ :: rest =>
    Expr.ObeysOpt r test ∧ Stmt.ObeysList r body ∧ SwitchCase.Obeys r rest

def CatchClause.Obeys (r : Rules) : List CatchClause → Prop
  | [] => True
  | ⟨param, body⟩ :: rest =>
    r.NameOpt param ∧ Stmt.ObeysList r body ∧ CatchClause.Obeys r rest

end

def Program.Obeys (r : Rules) (p : Program) : Prop := Stmt.ObeysList r p.body

namespace Fragment

variable {r : Rules}

/-- What the rules ask of a fragment itself. -/
def Abides (r : Rules) : Fragment → Prop
  | .expr (.ident name) | .head (.var _ name) | .stmt (.labeled name _) => r.name name
  | .expr (.update _ _ e) | .expr (.assign _ e _) | .stmt (.forInStmt (.target e) _ _) => r.place e
  | .expr (.unsupported node) | .stmt (.unsupported node) => r.kind node.kind
  | .func f => r.NameOpt f.name ∧ ∀ p ∈ f.params, r.name p
  | .decl d => r.name d.name
  | .clause c => r.NameOpt c.param
  | .stmt (.breakStmt label _) | .stmt (.continueStmt label _) => r.NameOpt label
  | .stmt (.funcStmt f) => r.NameOpt f.name
  | _ => True

/-- A fragment under the rules; what a loop over keys writes to is asked of the loop. -/
def Obeys (r : Rules) : Fragment → Prop
  | .expr e | .prop (.named _ e) | .head (.target e) => e.Obeys r
  | .prop (.computed key value) => key.Obeys r ∧ value.Obeys r
  | .func f => f.Obeys r
  | .decl d => r.name d.name ∧ Expr.ObeysOpt r d.init
  | .clause c => r.NameOpt c.param ∧ Stmt.ObeysList r c.body
  | .case c => Expr.ObeysOpt r c.test ∧ Stmt.ObeysList r c.body
  | .init i => i.Obeys r
  | .head (.var _ name) => r.name name
  | .stmt s => s.Obeys r

/-- A property of lists that holds if one of each item does. -/
theorem forall_of_cons {α : Type} {P : List α → Prop} {Q : α → Prop} (hnil : P [])
    (hcons : ∀ x l, P (x :: l) ↔ Q x ∧ P l) (l : List α) : P l ↔ ∀ x ∈ l, Q x := by
  induction l with
  | nil => simp [hnil]
  | cons x rest ih => rw [hcons, ih, List.forall_mem_cons]

theorem obeys_iff (p : Fragment) : p.Obeys r ↔ p.Abides r ∧ ∀ q ∈ p.parts, q.Obeys r := by
  have hexprs : ∀ es, Expr.ObeysList r es ↔ _ := forall_of_cons trivial fun _ _ => Iff.rfl
  have hexpr (e : Option Expr) : Expr.ObeysOpt r e ↔ ∀ x ∈ e, x.Obeys r := by
    cases e <;> simp [Expr.ObeysOpt]
  have hitems : ∀ es, Expr.ObeysItems r es ↔ _ := forall_of_cons trivial fun _ _ => Iff.rfl
  have hprops : ∀ ps, Property.Obeys r ps ↔ ∀ p ∈ ps, Obeys r (.prop p) :=
    forall_of_cons trivial fun p _ => by cases p <;> simp [Obeys, Property.Obeys, and_assoc]
  have hdecls : ∀ ds, Declarator.Obeys r ds ↔ ∀ d ∈ ds, Obeys r (.decl d) :=
    forall_of_cons trivial fun d _ => by cases d; exact and_assoc.symm
  have hstmts : ∀ body, Stmt.ObeysList r body ↔ _ := forall_of_cons trivial fun _ _ => Iff.rfl
  have hstmt (s : Option Stmt) : Stmt.ObeysOpt r s ↔ ∀ x ∈ s, x.Obeys r := by
    cases s <;> simp [Stmt.ObeysOpt]
  have hblock (b : Option (List Stmt)) : Stmt.ObeysBlock r b ↔ ∀ x ∈ b, Stmt.ObeysList r x := by
    cases b <;> simp [Stmt.ObeysBlock]
  have hcases : ∀ cs, SwitchCase.Obeys r cs ↔ ∀ c ∈ cs, Obeys r (.case c) :=
    forall_of_cons trivial fun c _ => by cases c; exact and_assoc.symm
  have hclauses : ∀ cs, CatchClause.Obeys r cs ↔ ∀ c ∈ cs, Obeys r (.clause c) :=
    forall_of_cons trivial fun c _ => by cases c; exact and_assoc.symm
  rcases p with x | x | x | x | x | x | x | x | x <;> cases x
  case expr.array items =>
    simp only [Obeys, Abides, parts, Expr.Obeys, hitems, hexpr, true_and, List.forall_mem_flatMap,
      List.forall_mem_map, Option.mem_toList]
    rfl
  case stmt.funcStmt f =>
    obtain ⟨name, params, body⟩ := f
    simp only [Obeys, Abides, parts, Stmt.Obeys, List.forall_mem_singleton]
    exact (and_iff_right_of_imp And.left).symm
  case stmt.tryStmt block handlers finalizer span =>
    cases finalizer <;> simp [*, Obeys, Abides, parts, Stmt.Obeys, and_assoc, or_imp, forall_and]
  case stmt.forInStmt head object body =>
    cases head <;> simp [Obeys, Abides, parts, Stmt.Obeys, ForInHead.Obeys, and_assoc]
  all_goals
    simp [*, Obeys, Abides, parts, Expr.Obeys, Func.Obeys, ForInit.Obeys, Stmt.Obeys, and_assoc,
      or_imp, forall_and]

/-- A fragment is under the rules if all fragments within are. -/
theorem obeys_iff_within (p : Fragment) : p.Obeys r ↔ ∀ q ∈ p.within true, q.Abides r := by
  induction p using induct with
  | h p ih =>
    rw [obeys_iff, within_eq]
    simp only [isOpen_true, if_true, List.forall_mem_cons, List.forall_mem_flatMap]
    exact and_congr_right fun _ => forall₂_congr ih

theorem within_false_subset (p : Fragment) : p.within false ⊆ p.within true := by
  induction p using induct with
  | h p ih =>
    rw [within_eq, within_eq]
    simp only [isOpen_true, if_true]
    refine List.cons_subset_cons p fun q hq => ?_
    obtain ⟨part, hpart, hq⟩ := List.mem_flatMap.mp hq
    split at hq
    · exact List.mem_flatMap.mpr ⟨part, hpart, ih part hpart hq⟩
    · cases hq

end Fragment

theorem Stmt.obeysList_iff {r : Rules} {body : List Stmt} :
    Stmt.ObeysList r body ↔ ∀ s ∈ body, s.Obeys r :=
  Fragment.forall_of_cons trivial (fun _ _ => Iff.rfl) body

section Declared

variable {r : Rules} {body : List Stmt} {name : String}

theorem Stmt.ObeysList.abides (h : Stmt.ObeysList r body) {s : Stmt} (hs : s ∈ body)
    {p : Fragment} (hp : p ∈ (Fragment.stmt s).within false) : p.Abides r :=
  (Fragment.obeys_iff_within (.stmt s)).mp (Stmt.obeysList_iff.mp h s hs) p
    (Fragment.within_false_subset _ hp)

/-- The variables that statements under rules declare are under them. -/
theorem Stmt.ObeysList.vars (h : Stmt.ObeysList r body) (hname : name ∈ Stmt.varsList body) :
    r.name name := by
  obtain ⟨s, hs, p, hp, hd⟩ := Stmt.mem_varsList.mp hname
  have habides := h.abides hs hp
  unfold Fragment.declared at hd
  split at hd
  · exact List.mem_singleton.mp hd ▸ habides
  · exact List.mem_singleton.mp hd ▸ habides
  · cases hd

theorem Declarator.Obeys.names {decls : List Declarator} (h : Declarator.Obeys r decls) :
    ∀ name ∈ Declarator.names decls, r.name name := by
  intro name hname
  have hbody : Stmt.ObeysList r [.varStmt .var decls] := ⟨h, trivial⟩
  exact hbody.vars (List.mem_append_left _ hname)

theorem Stmt.ObeysList.funcNames (h : Stmt.ObeysList r body)
    (hname : name ∈ Stmt.funcNamesList body) : r.name name := by
  obtain ⟨s, hs, p, hp, hf⟩ := Stmt.mem_funcNamesList.mp hname
  have habides := h.abides hs hp
  unfold Fragment.functionName at hf
  split at hf
  · next f =>
      have hsome : f.name = some name := Option.mem_toList.mp hf
      simp only [Fragment.Abides, hsome] at habides
      exact habides
  · cases hf

end Declared

/-- The rules that ask nothing. -/
def Rules.lax : Rules where
  name _ := True
  kind _ := True
  place _ := True

/-- Every program obeys the rules that ask nothing. -/
theorem Fragment.obeys_lax (p : Fragment) : p.Obeys .lax := by
  rw [obeys_iff_within]
  intro q _
  have hopt (name : Option String) : Rules.lax.NameOpt name := by cases name <;> trivial
  unfold Abides
  split <;> first | trivial | exact hopt _ | exact ⟨hopt _, fun _ _ => trivial⟩

/-- The rule for places is one that hoisting keeps. -/
structure Rules.Stable (r : Rules) : Prop where
  ident : ∀ name, r.place (.ident name)
  hoist : ∀ e, r.place e → r.place e.hoist

section Hoisting

variable {r : Rules} {s : Option Stmt} {a b : List Stmt}

theorem Stmt.ObeysList.append (ha : Stmt.ObeysList r a) (hb : Stmt.ObeysList r b) :
    Stmt.ObeysList r (a ++ b) := by
  simp only [Stmt.obeysList_iff, List.forall_mem_append] at *
  exact ⟨ha, hb⟩

theorem Stmt.ObeysList.toList (h : Stmt.ObeysOpt r s) : Stmt.ObeysList r s.toList := by
  cases s with
  | none => trivial
  | some s => exact ⟨h, trivial⟩

theorem Stmt.Obeys.getD (h : Stmt.ObeysOpt r s) : (s.getD .empty).Obeys r := by
  cases s with
  | none => trivial
  | some s => exact h

theorem Stmt.ObeysList.leadingDeclaration (params : List String) (funcs : List Stmt)
    (h : Stmt.ObeysList r a) :
    Stmt.ObeysList r (leadingDeclaration params (Stmt.declareList [] a) funcs) := by
  rw [EcmaLua.leadingDeclaration, Stmt.declareList_nil]
  split
  · trivial
  · refine ⟨?_, trivial⟩
    have hdecls (names : List String) (hnames : ∀ n ∈ names, r.name n) :
        Declarator.Obeys r (names.map fun name => ⟨name, none⟩) := by
      induction names with
      | nil => trivial
      | cons n rest ih =>
        rw [List.forall_mem_cons] at hnames
        exact ⟨hnames.1, trivial, ih hnames.2⟩
    exact hdecls _ fun n hn => h.vars (mem_firstOccurrences.mp (List.mem_filter.mp hn).1)

theorem joinAssignments_obeys {es : List Expr} (h : Expr.ObeysList r es) :
    Expr.ObeysOpt r (joinAssignments es) := by
  match es, h with
  | [], _ => trivial
  | [e], h => exact h.1
  | _ :: _ :: _, h => exact h

/-- What hoisting leaves of a part and what it puts in front are under the rules. -/
structure Rules.Keeps (r : Rules) (left : Prop) (front : List Stmt) : Prop where
  left : left
  front : Stmt.ObeysList r front

mutual

theorem Expr.Obeys.hoist (hr : r.Stable) : (e : Expr) → e.Obeys r → e.hoist.Obeys r
  | .ident _, h | .unsupported _, h => h
  | .this, _ | .lit _, _ => trivial
  | .array items, h => Expr.Obeys.hoistItems hr items h
  | .object props, h => Property.Obeys.hoist hr props h
  | .func f, h => Func.Obeys.hoist hr f h
  | .unary _ arg, h | .member arg _, h => Expr.Obeys.hoist hr arg h
  | .update _ _ arg, h => ⟨hr.hoist arg h.1, Expr.Obeys.hoist hr arg h.2⟩
  | .binary _ left right, h | .logical _ left right, h
  | .index left right, h => ⟨Expr.Obeys.hoist hr left h.1, Expr.Obeys.hoist hr right h.2⟩
  | .assign _ target value, h =>
    ⟨hr.hoist target h.1, Expr.Obeys.hoist hr target h.2.1, Expr.Obeys.hoist hr value h.2.2⟩
  | .cond test cons alt, h =>
    ⟨Expr.Obeys.hoist hr test h.1, Expr.Obeys.hoist hr cons h.2.1, Expr.Obeys.hoist hr alt h.2.2⟩
  | .call callee args, h
  | .new callee args, h => ⟨Expr.Obeys.hoist hr callee h.1, Expr.Obeys.hoistList hr args h.2⟩
  | .seq items, h => Expr.Obeys.hoistList hr items h

theorem Expr.Obeys.hoistList (hr : r.Stable) : (es : List Expr) →
    Expr.ObeysList r es → Expr.ObeysList r (Expr.hoistList es)
  | [], _ => trivial
  | e :: rest, h => ⟨Expr.Obeys.hoist hr e h.1, Expr.Obeys.hoistList hr rest h.2⟩

theorem Expr.Obeys.hoistOpt (hr : r.Stable) : (e : Option Expr) →
    Expr.ObeysOpt r e → Expr.ObeysOpt r (Expr.hoistOpt e)
  | none, _ => trivial
  | some e, h => Expr.Obeys.hoist hr e h

theorem Expr.Obeys.hoistItems (hr : r.Stable) : (items : List (Option Expr)) →
    Expr.ObeysItems r items → Expr.ObeysItems r (Expr.hoistItems items)
  | [], _ => trivial
  | item :: rest, h => ⟨Expr.Obeys.hoistOpt hr item h.1, Expr.Obeys.hoistItems hr rest h.2⟩

theorem Property.Obeys.hoist (hr : r.Stable) : (props : List Property) →
    Property.Obeys r props → Property.Obeys r (Property.hoist props)
  | [], _ => trivial
  | .named _ value :: rest, h => ⟨Expr.Obeys.hoist hr value h.1, Property.Obeys.hoist hr rest h.2⟩
  | .computed key value :: rest, h =>
    ⟨Expr.Obeys.hoist hr key h.1, Expr.Obeys.hoist hr value h.2.1,
      Property.Obeys.hoist hr rest h.2.2⟩

theorem Func.Obeys.hoist (hr : r.Stable) : (f : Func) → f.Obeys r → f.hoist.Obeys r
  | ⟨_, params, body⟩, h =>
    have hbody := Stmt.Obeys.keepsList hr body h.2.2
    ⟨h.1, h.2.1, ((h.2.2.leadingDeclaration params _).append hbody.front).append hbody.left⟩

theorem Declarator.Obeys.assignments (hr : r.Stable) : (decls : List Declarator) →
    Declarator.Obeys r decls → Expr.ObeysList r (Declarator.assignments decls)
  | [], _ => trivial
  | ⟨_, none⟩ :: rest, h => Declarator.Obeys.assignments hr rest h.2.2
  | ⟨name, some init⟩ :: rest, h =>
    ⟨⟨hr.ident name, h.1, Expr.Obeys.hoist hr init h.2.1⟩,
      Declarator.Obeys.assignments hr rest h.2.2⟩

theorem ForInit.Obeys.residue (hr : r.Stable) :
    (init : ForInit) → init.Obeys r → init.residue.Obeys r
  | .none, _ => trivial
  | .vars _ decls, h => by
    have hjoin := joinAssignments_obeys (Declarator.Obeys.assignments hr decls h)
    rw [ForInit.residue]
    revert hjoin
    cases joinAssignments (Declarator.assignments decls) with
    | none => exact fun _ => trivial
    | some e => exact id
  | .expr e, h => Expr.Obeys.hoist hr e h

theorem ForInHead.Obeys.residue (hr : r.Stable) :
    (head : ForInHead) → head.Obeys r → head.residue.Obeys r
  | .var _ name, h => ⟨hr.ident name, h⟩
  | .target e, h => ⟨hr.hoist e h.1, Expr.Obeys.hoist hr e h.2⟩

theorem Stmt.Obeys.keeps (hr : r.Stable) : (s : Stmt) → s.Obeys r →
    r.Keeps (Stmt.ObeysOpt r s.residue) s.hoistedFuncs
  | .empty, _ => ⟨trivial, trivial⟩
  | .funcStmt f, h => ⟨trivial, Func.Obeys.hoist hr f h, trivial⟩
  | .exprStmt e, h | .throwStmt e, h => ⟨Expr.Obeys.hoist hr e h, trivial⟩
  | .varStmt _ decls, h => by
    have hjoin := joinAssignments_obeys (Declarator.Obeys.assignments hr decls h)
    refine ⟨?_, trivial⟩
    rw [Stmt.residue]
    revert hjoin
    cases joinAssignments (Declarator.assignments decls) with
    | none => exact fun _ => trivial
    | some e => exact id
  | .returnStmt arg, h => ⟨Expr.Obeys.hoistOpt hr arg h, trivial⟩
  | .breakStmt _ _, h | .continueStmt _ _, h | .unsupported _, h => ⟨h, trivial⟩
  | .ifStmt test cons alt, h =>
    have hcons := Stmt.Obeys.keeps hr cons h.2.1
    have halt := Stmt.Obeys.keepsOpt hr alt h.2.2
    ⟨⟨Expr.Obeys.hoist hr test h.1, .getD hcons.left, halt.left⟩, hcons.front.append halt.front⟩
  | .whileStmt e body, h | .withStmt e body _, h =>
    have hbody := Stmt.Obeys.keeps hr body h.2
    ⟨⟨Expr.Obeys.hoist hr e h.1, .getD hbody.left⟩, hbody.front⟩
  | .doWhileStmt body test, h =>
    have hbody := Stmt.Obeys.keeps hr body h.1
    ⟨⟨.getD hbody.left, Expr.Obeys.hoist hr test h.2⟩, hbody.front⟩
  | .forStmt init test update body, h =>
    have hbody := Stmt.Obeys.keeps hr body h.2.2.2
    ⟨⟨ForInit.Obeys.residue hr init h.1, Expr.Obeys.hoistOpt hr test h.2.1,
      Expr.Obeys.hoistOpt hr update h.2.2.1, .getD hbody.left⟩, hbody.front⟩
  | .forInStmt head object body, h =>
    have hbody := Stmt.Obeys.keeps hr body h.2.2
    ⟨⟨ForInHead.Obeys.residue hr head h.1, Expr.Obeys.hoist hr object h.2.1, .getD hbody.left⟩,
      hbody.front⟩
  | .switchStmt discriminant cases, h =>
    have hcases := SwitchCase.Obeys.keeps hr cases h.2
    ⟨⟨Expr.Obeys.hoist hr discriminant h.1, hcases.left⟩, hcases.front⟩
  | .tryStmt block handlers finalizer _, h =>
    have hblock := Stmt.Obeys.keepsList hr block h.1
    have hhandlers := CatchClause.Obeys.keeps hr handlers h.2.1
    have hfinalizer := Stmt.Obeys.keepsBlock hr finalizer h.2.2
    ⟨⟨hblock.left, hhandlers.left, hfinalizer.left⟩,
      (hblock.front.append hhandlers.front).append hfinalizer.front⟩
  | .labeled _ body, h =>
    have hbody := Stmt.Obeys.keeps hr body h.2
    ⟨⟨h.1, .getD hbody.left⟩, hbody.front⟩
  | .block body, h =>
    have hbody := Stmt.Obeys.keepsList hr body h
    ⟨hbody.left, hbody.front⟩

theorem Stmt.Obeys.keepsList (hr : r.Stable) : (body : List Stmt) → Stmt.ObeysList r body →
    r.Keeps (Stmt.ObeysList r (Stmt.residueList body)) (Stmt.hoistedFuncsList body)
  | [], _ => ⟨trivial, trivial⟩
  | s :: rest, h =>
    have hs := Stmt.Obeys.keeps hr s h.1
    have hrest := Stmt.Obeys.keepsList hr rest h.2
    ⟨(Stmt.ObeysList.toList hs.left).append hrest.left, hs.front.append hrest.front⟩

theorem Stmt.Obeys.keepsOpt (hr : r.Stable) : (s : Option Stmt) → Stmt.ObeysOpt r s →
    r.Keeps (Stmt.ObeysOpt r (Stmt.residueOpt s)) (Stmt.hoistedFuncsOpt s)
  | none, _ => ⟨trivial, trivial⟩
  | some s, h =>
    have hs := Stmt.Obeys.keeps hr s h
    ⟨Stmt.Obeys.getD hs.left, hs.front⟩

theorem Stmt.Obeys.keepsBlock (hr : r.Stable) :
    (body : Option (List Stmt)) → Stmt.ObeysBlock r body →
    r.Keeps (Stmt.ObeysBlock r (Stmt.residueBlock body)) (Stmt.hoistedFuncsBlock body)
  | none, _ => ⟨trivial, trivial⟩
  | some body, h =>
    have hbody := Stmt.Obeys.keepsList hr body h
    ⟨hbody.left, hbody.front⟩

theorem SwitchCase.Obeys.keeps (hr : r.Stable) :
    (cases : List SwitchCase) → SwitchCase.Obeys r cases →
    r.Keeps (SwitchCase.Obeys r (SwitchCase.residue cases)) (SwitchCase.hoistedFuncs cases)
  | [], _ => ⟨trivial, trivial⟩
  | ⟨test, body⟩ :: rest, h =>
    have hbody := Stmt.Obeys.keepsList hr body h.2.1
    have hrest := SwitchCase.Obeys.keeps hr rest h.2.2
    ⟨⟨Expr.Obeys.hoistOpt hr test h.1, hbody.left, hrest.left⟩, hbody.front.append hrest.front⟩

theorem CatchClause.Obeys.keeps (hr : r.Stable) :
    (clauses : List CatchClause) → CatchClause.Obeys r clauses →
    r.Keeps (CatchClause.Obeys r (CatchClause.residue clauses)) (CatchClause.hoistedFuncs clauses)
  | [], _ => ⟨trivial, trivial⟩
  | ⟨_, body⟩ :: rest, h =>
    have hbody := Stmt.Obeys.keepsList hr body h.2.1
    have hrest := CatchClause.Obeys.keeps hr rest h.2.2
    ⟨⟨h.1, hbody.left, hrest.left⟩, hbody.front.append hrest.front⟩

end

/-- Hoisting keeps a program under the rules. -/
theorem Program.Obeys.hoist (hr : r.Stable) {p : Program} (h : p.Obeys r) : p.hoist.Obeys r :=
  (Func.Obeys.hoist hr ⟨none, [], p.body⟩ ⟨trivial, nofun, h⟩).2.2

end Hoisting

end EcmaLua
