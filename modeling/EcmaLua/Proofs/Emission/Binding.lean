import EcmaLua.Proofs.Emission.Judgement
import EcmaLua.Proofs.Emission.Landing
import EcmaLua.Proofs.Program.Shape

/-!
# Binders of generated code

The Lua function of a program function starts with what its body declares: the arguments, if the
body mentions them, then the functions, then the variables. Behind that, code binds names for
itself only. The judgement `Binds` says which names the binders behind the declarations may have,
and that every function among the code is laid out in this way; a rule gives the names.
-/

namespace EcmaLua

open Emission

open Lua (Helper)
open List (forall_mem_append forall_mem_cons forall_mem_singleton forall_mem_map)

section Layout

/-- Whether a function takes its arguments packed, since its body mentions them. -/
def Func.packs (f : Func) : Bool := (Declarations.ofBody f.hoist.body).references "arguments"

/-- The names that are bound before the body of a function declares any. -/
def Func.bound (f : Func) : List String :=
  if f.packs then f.params ++ ["arguments"] else f.params

/-- The declared functions that are not bound before, in ascending order. -/
def functionLocals (bound : List String) (body : List Stmt) : List String :=
  (nameSet (Stmt.funcNamesList body)).filter fun name => !bound.contains name

/-- The names of a body, each where it is bound: before the body, as a function, or as a
variable. -/
def ownNames (bound : List String) (body : List Stmt) : List String :=
  bound ++ functionLocals bound body ++ leadingNames bound body

/-- One local statement for the names; no names, no statement. -/
def Lua.localsOf (names : List String) : List Lua.Stat :=
  if names.isEmpty then [] else [.declare (names.map Lua.spell)]

/-- The declarations at the start of a body. -/
def Lua.front (bound : List String) (body : List Stmt) : List Lua.Stat :=
  localsOf (functionLocals bound body) ++ localsOf (leadingNames bound body)

/-- What a function with packed arguments starts with. -/
def Lua.prologue (params : List String) : List Lua.Stat :=
  (if (params.map Lua.spell).isEmpty then [] else [.define (params.map Lua.spell) .vararg]) ++
    [.define ["arguments"] (.call (.field (.name "table") "pack") [.vararg]),
      .assign (.field (.name "arguments") "__Length") (.field (.name "arguments") "n")]

/-- The Lua function of a program function, with `rest` behind the declarations. -/
def Func.literal (f : Func) (rest : List Lua.Stat) : Lua.Expr :=
  Helper.defineFunction.call
    [if f.packs then
        .func ["self"] true (Lua.prologue f.params ++ (Lua.front f.bound f.body ++ rest))
      else .func ("self" :: f.params.map Lua.spell) false (Lua.front f.bound f.body ++ rest)]

/-- The Lua names that a function binds before and with its declarations. -/
def Func.taken (f : Func) : List String := (ownNames f.bound f.body).map Lua.spell

end Layout

/-- The variable of a loop over keys, where its head is one. -/
def ForInHead.names : ForInHead → List String
  | .var _ name => [name]
  | .target (.ident name) => [name]
  | .target _ => []

mutual

/-- The variables in the heads of a statement's loops over keys, without those of nested
functions. -/
def Stmt.heads : Stmt → List String
  | .ifStmt _ cons alt => cons.heads ++ Stmt.headsOpt alt
  | .whileStmt _ body => body.heads
  | .doWhileStmt body _ => body.heads
  | .forStmt _ _ _ body => body.heads
  | .forInStmt head _ body => head.names ++ body.heads
  | .switchStmt _ cases => SwitchCase.heads cases
  | .tryStmt block handlers finalizer _ =>
    Stmt.headsList block ++ CatchClause.heads handlers ++ Stmt.headsBlock finalizer
  | .withStmt _ body _ => body.heads
  | .labeled _ body => body.heads
  | .block body => Stmt.headsList body
  | .empty | .exprStmt _ | .varStmt _ _ | .funcStmt _ | .returnStmt _ | .throwStmt _
  | .breakStmt _ _ | .continueStmt _ _ | .unsupported _ => []

def Stmt.headsList : List Stmt → List String
  | [] => []
  | s :: rest => s.heads ++ Stmt.headsList rest

def Stmt.headsOpt : Option Stmt → List String
  | none => []
  | some s => s.heads

def Stmt.headsBlock : Option (List Stmt) → List String
  | none => []
  | some body => Stmt.headsList body

def SwitchCase.heads : List SwitchCase → List String
  | [] => []
  | ⟨_, body⟩ :: rest => Stmt.headsList body ++ SwitchCase.heads rest

def CatchClause.heads : List CatchClause → List String
  | [] => []
  | ⟨_, body⟩ :: rest => Stmt.headsList body ++ CatchClause.heads rest

end

/-- Which names binders may have. The names that the functions around a place have `taken` count
as well. -/
structure BindingRule where
  /-- the functions that may stand in the code -/
  scope : Func → Prop
  /-- the names of locals behind the declarations -/
  temporary : List String → String → Prop
  /-- the names of loop variables -/
  control : List String → String → Prop

namespace Lua

/-- Expressions without parts. -/
def Expr.IsLeaf : Expr → Prop
  | .nil | .bool _ | .vararg | .int _ | .number _ | .string _ | .bytes _ | .name _ | .read _ => True
  | _ => False

/-- Statements without parts, which bind nothing. -/
def Stat.IsLeaf : Stat → Prop
  | .note _ | .marker _ | .goTo _ | .label _ | .breakLoop => True
  | _ => False

mutual

/-- The expression has no binders but those that the rule allows. -/
inductive Expr.Binds (r : BindingRule) : List String → Expr → Prop
  | leaf {taken : List String} {e : Expr} (h : e.IsLeaf) : Expr.Binds r taken e
  | paren {taken : List String} {e : Expr} (h : Expr.Binds r taken e) :
      Expr.Binds r taken (.paren e)
  | call {taken : List String} {f : Expr} {args : List Expr} (hf : Expr.Binds r taken f)
      (ha : ∀ a ∈ args, Expr.Binds r taken a) : Expr.Binds r taken (.call f args)
  | field {taken : List String} {e : Expr} {name : String} (h : Expr.Binds r taken e) :
      Expr.Binds r taken (.field e name)
  | index {taken : List String} {e key : Expr} (he : Expr.Binds r taken e)
      (hk : Expr.Binds r taken key) : Expr.Binds r taken (.index e key)
  | unop {taken : List String} {op : UnOp} {e : Expr} (h : Expr.Binds r taken e) :
      Expr.Binds r taken (.unop op e)
  | binop {taken : List String} {op : BinOp} {left right : Expr}
      (hl : Expr.Binds r taken left) (hr : Expr.Binds r taken right) :
      Expr.Binds r taken (.binop op left right)
  | table {taken : List String} {fields : List Field}
      (h : ∀ f ∈ fields, Field.Binds r taken f) : Expr.Binds r taken (.table fields)
  | lambda {taken : List String} {steps : List Step} {result : Expr}
      (hs : ∀ s ∈ steps, Step.Binds r taken s) (hr : Expr.Binds r taken result) :
      Expr.Binds r taken (.lambda steps result)
  | noted {taken : List String} {e : Expr} {note : String} (h : Expr.Binds r taken e) :
      Expr.Binds r taken (.noted e note)
  /-- the body of a `try` -/
  | guarded {taken : List String} {body : List Stat} (h : ∀ s ∈ body, Stat.Binds r taken s) :
      Expr.Binds r taken (.call (.name "pcall") [.func [] false body])
  /-- a finalizer, or a handler with its parameter -/
  | closure {taken params : List String} {body : List Stat}
      (h : ∀ s ∈ body, Stat.Binds r taken s) : Expr.Binds r taken (.paren (.func params false body))
  /-- a function expression that mentions its own name -/
  | named {taken : List String} {name : String} {f : Expr} (h : Expr.Binds r taken f) :
      Expr.Binds r taken (.call (.paren (.func [] false
        [.declare [spell name], .assign (.name (spell name)) f, .ret (.name (spell name))])) [])
  /-- a function of the program; what it declares is taken inside of it -/
  | function {taken : List String} {f : Func} {rest : List Stat} (hf : r.scope f)
      (h : ∀ s ∈ rest, Stat.Binds r (f.taken ++ taken) s) : Expr.Binds r taken (f.literal rest)

inductive Field.Binds (r : BindingRule) : List String → Field → Prop
  | item {taken : List String} {value : Expr} (h : Expr.Binds r taken value) :
      Field.Binds r taken (.item value)
  | keyed {taken : List String} {key value : Expr} (hk : Expr.Binds r taken key)
      (hv : Expr.Binds r taken value) : Field.Binds r taken (.keyed key value)

inductive Step.Binds (r : BindingRule) : List String → Step → Prop
  | define {taken : List String} {name : String} {value : Expr} (hn : r.temporary taken name)
      (h : Expr.Binds r taken value) : Step.Binds r taken (.define name value)
  | assign {taken : List String} {target value : Expr} (ht : Expr.Binds r taken target)
      (hv : Expr.Binds r taken value) : Step.Binds r taken (.assign target value)

inductive Arm.Binds (r : BindingRule) : List String → Arm → Prop
  | mk {taken : List String} {cond : Expr} {step : Step} (hc : Expr.Binds r taken cond)
      (hs : Step.Binds r taken step) : Arm.Binds r taken (.mk cond step)

inductive Tail.Binds (r : BindingRule) : List String → Tail → Prop
  | none {taken : List String} : Tail.Binds r taken .none
  | otherwise {taken : List String} {body : List Stat} (h : ∀ s ∈ body, Stat.Binds r taken s) :
      Tail.Binds r taken (.otherwise body)
  | elseif {taken : List String} {cond : Expr} {body : List Stat} {tail : Tail}
      (hc : Expr.Binds r taken cond) (hb : ∀ s ∈ body, Stat.Binds r taken s)
      (ht : Tail.Binds r taken tail) : Tail.Binds r taken (.elseif cond body tail)

/-- The statement has no binders but those that the rule allows. No declaration without a value
is among them. -/
inductive Stat.Binds (r : BindingRule) : List String → Stat → Prop
  | leaf {taken : List String} {s : Stat} (h : s.IsLeaf) : Stat.Binds r taken s
  | define {taken names : List String} {value : Expr} (hn : ∀ n ∈ names, r.temporary taken n)
      (h : Expr.Binds r taken value) : Stat.Binds r taken (.define names value)
  | assign {taken : List String} {target value : Expr} (ht : Expr.Binds r taken target)
      (hv : Expr.Binds r taken value) : Stat.Binds r taken (.assign target value)
  | store {taken : List String} {target : Expr} {key : String} (h : Expr.Binds r taken target) :
      Stat.Binds r taken (.store target key)
  | call {taken : List String} {e : Expr} (h : Expr.Binds r taken e) : Stat.Binds r taken (.call e)
  | doBlock {taken : List String} {body : List Stat} (h : ∀ s ∈ body, Stat.Binds r taken s) :
      Stat.Binds r taken (.doBlock body)
  | whileLoop {taken : List String} {cond : Expr} {body : List Stat}
      (hc : Expr.Binds r taken cond) (hb : ∀ s ∈ body, Stat.Binds r taken s) :
      Stat.Binds r taken (.whileLoop cond body)
  | repeatUntil {taken : List String} {body : List Stat} {cond : Expr}
      (hb : ∀ s ∈ body, Stat.Binds r taken s) (hc : Expr.Binds r taken cond) :
      Stat.Binds r taken (.repeatUntil body cond)
  | ifThen {taken : List String} {cond : Expr} {body : List Stat} {tail : Tail}
      (hc : Expr.Binds r taken cond) (hb : ∀ s ∈ body, Stat.Binds r taken s)
      (ht : Tail.Binds r taken tail) : Stat.Binds r taken (.ifThen cond body tail)
  | select {taken : List String} {arms : List Arm} {otherwise : Option Step}
      (ha : ∀ a ∈ arms, Arm.Binds r taken a)
      (ho : ∀ step ∈ otherwise, Step.Binds r taken step) :
      Stat.Binds r taken (.select arms otherwise)
  | forIn {taken : List String} {key value : String} {iterator : Expr} {body : List Stat}
      (hk : r.control taken key) (hv : r.control taken value) (hi : Expr.Binds r taken iterator)
      (hb : ∀ s ∈ body, Stat.Binds r taken s) :
      Stat.Binds r taken (.forIn key value iterator body)
  | scoped {taken : List String} {proxy : String} {object : Expr} {body : List Stat}
      (hp : r.temporary taken proxy) (ho : Expr.Binds r taken object)
      (hb : ∀ s ∈ body, Stat.Binds r taken s) : Stat.Binds r taken (.scoped proxy object body)
  | ret {taken : List String} {value : Expr} (h : Expr.Binds r taken value) :
      Stat.Binds r taken (.ret value)

end

/-- The code has no binders but those that the rule allows. -/
abbrev Stat.BindsAll (r : BindingRule) (taken : List String) (code : List Stat) : Prop :=
  ∀ s ∈ code, s.Binds r taken

end Lua

/-- The name is made up for generated code. -/
def Emission.Generated (name : String) : Prop :=
  ∃ stem ∈ stems, ∃ k : Nat, name = stem ++ toString k

/-- The rule lets code have the names that are made up for it, and the variables in the heads of
loops. The names that the functions around a place have taken are as `around` says, and the
functions at the place, at any depth, are as `fits` says. -/
structure BindingRule.Lawful (r : BindingRule) (around : List String → Prop)
    (fits : List String → Func → Prop) : Prop where
  temporary : ∀ {taken : List String} {n : String}, around taken → Generated n →
    r.temporary taken n
  control : ∀ {taken : List String} {n : String}, around taken → Generated n → r.control taken n
  scope : ∀ {taken : List String} {f : Func}, fits taken f → r.scope f
  enter : ∀ {taken : List String} {f : Func}, around taken → fits taken f →
    around (f.taken ++ taken)
  inner : ∀ {taken : List String} {f g : Func}, fits taken f → g.hoist ∈ f.hoist.inner →
    fits taken g → fits (f.taken ++ taken) g
  head : ∀ {taken : List String} {f : Func}, fits taken f →
    ∀ x ∈ Stmt.headsList f.hoist.body, r.control (f.taken ++ taken) (Lua.spell x)

namespace Emission

/-- Whatever the state, the result has the property. -/
abbrev Always {α : Type} (P : α → Prop) (act : Emit α) : Prop := Ensures (fun _ => True) P act

section Actions

variable {α : Type} {P : α → Prop} {x : Emit α}

theorem always_any (act : Emit α) : Always (fun _ => True) act := fun _ _ => ⟨trivial, trivial⟩

theorem always_fresh {r : BindingRule} {around : List String → Prop}
  {fits : List String → Func → Prop} {taken : List String}
    (hr : r.Lawful around fits) (ht : around taken) {stem : String} (h : stem ∈ stems) :
    Always (fun name => r.temporary taken name ∧ r.control taken name) (fresh stem) := by
  intro s _
  have hname : Generated (stem ++ toString (s.supply.last + 1)) := ⟨stem, h, _, rfl⟩
  exact ⟨⟨hr.temporary ht hname, hr.control ht hname⟩, trivial⟩

theorem Always.inFrame (h : Always P x) (frame : Frame) : Always P (inFrame frame x) :=
  fun s hs => ⟨(h { s with scope := frame :: s.scope } hs).1, hs⟩

theorem Always.enclosed (h : Always P x) (e : Enclosure) :
    Always (fun result => P result.1) (enclosed e x) :=
  fun s hs => ⟨(h { s with control := e :: s.control } hs).1, hs⟩

theorem Always.walled (h : Always P x) : Always P (walled x) :=
  (h.enclosed .barrier).bind fun _ hr => .pure hr

theorem Always.labeled (h : Always P x) (labels : List String) : Always P (labeled labels x) := by
  induction labels with
  | nil => exact h
  | cons label rest ih => exact (ih.enclosed (.labeled label)).bind fun _ hr => .pure hr

theorem Always.capturing (h : Always P x) :
    Always (fun result => P result.1) (capturing x) :=
  fun s hs => ⟨(h { s with captured := [] :: s.captured } hs).1, hs⟩

end Actions

section Trees

variable {r : BindingRule} {taken : List String}

theorem forall_mem_pair {α : Type} {P : α → Prop} {a b : α} (ha : P a) (hb : P b) :
    ∀ x ∈ [a, b], P x :=
  forall_mem_cons.mpr ⟨ha, forall_mem_singleton.mpr hb⟩

theorem binds_helper (h : Helper) {args : List Lua.Expr} (ha : ∀ a ∈ args, a.Binds r taken) :
    (h.call args).Binds r taken := by
  refine .call ?_ ha
  unfold Helper.expr
  split
  · exact .leaf trivial
  · exact .field (.leaf trivial)

theorem binds_helper_one (h : Helper) {e : Lua.Expr} (he : e.Binds r taken) :
    (h.call [e]).Binds r taken :=
  binds_helper h (forall_mem_singleton.mpr he)

end Trees

/-- Code without other binders than those that the rule allows. -/
abbrev Judgement.bound (r : BindingRule) (taken : List String) : Judgement where
  value := Lua.Expr.Binds r taken
  operand := Lua.Expr.Binds r taken
  place := Lua.Expr.Binds r taken
  action := Lua.Expr.Binds r taken
  args es := ∀ e ∈ es, e.Binds r taken
  fields fs := ∀ f ∈ fs, f.Binds r taken
  arms as := ∀ a ∈ as, a.Binds r taken
  code := Lua.Stat.BindsAll r taken
  block := Lua.Stat.BindsAll r taken
  body := Lua.Stat.BindsAll r taken
  temporary := r.temporary taken
  parameter _ := True
  lax := True

/-- No use of the expression has other binders than those that the rule allows. -/
abbrev Rendition.Binds (r : BindingRule) (taken : List String) (e : Rendition) : Prop :=
  e.Lawful (.bound r taken) Always false

end Emission

theorem BindingRule.Lawful.law {r : BindingRule} {around : List String → Prop}
    {fits : List String → Func → Prop} {taken : List String} (hr : r.Lawful around fits)
    (ht : around taken) : (Judgement.bound r taken).Lawful Always where
  pure := .pure
  bind := .bind
  lookup _ := always_any _
  report _ := always_any _
  fresh h := (always_fresh hr ht h).mono fun _ hn => hn.1
  declareNew _ := always_any _
  inFrame frame h := h.inFrame frame
  ofOperand := id
  ofPlace := id
  ofAction := id
  ofLax _ := id
  nil := .leaf trivial
  int _ := .leaf trivial
  literal
    | .regex _ _ => binds_helper _ (forall_mem_pair (.leaf trivial) (.leaf trivial))
    | .null | .bool _ | .number _ | .string _ | .bytes _ => .leaf trivial
  fixed _ := .leaf trivial
  ofTemporary _ := .leaf trivial
  paren := .paren
  neg := .unop
  not := .unop
  binop _ _ _ := .binop
  call := .call
  helper := binds_helper
  field _ := .field
  index := .index
  table := .table
  assigning ht he := .lambda (forall_mem_singleton.mpr (.assign ht he))
  saving hn ho ht he :=
    .lambda (forall_mem_pair (.define hn ho) (.assign ht he)) (.leaf trivial)
  none := nofun
  cons he hes := forall_mem_cons.mpr ⟨he, hes⟩
  items h := forall_mem_map.mpr fun e he => .item (h e he)
  keyed hk he hf := forall_mem_cons.mpr ⟨.keyed hk he, hf⟩
  snoc hf hk he := forall_mem_append.mpr ⟨hf, forall_mem_singleton.mpr (.keyed hk he)⟩
  guarded := .guarded
  closure _ := .closure
  named _ := .named
  empty := nofun
  append ha hb := forall_mem_append.mpr ⟨ha, hb⟩
  ofCode := id
  before ha hb := forall_mem_append.mpr ⟨ha, hb⟩
  ret h := forall_mem_singleton.mpr (.ret h)
  act h := forall_mem_singleton.mpr (.call h)
  assign ht he := forall_mem_singleton.mpr (.assign ht he)
  note _ := forall_mem_singleton.mpr (.leaf trivial)
  marker _ := forall_mem_singleton.mpr (.leaf trivial)
  define _ hn he := forall_mem_singleton.mpr (.define hn he)
  ifThen he h := forall_mem_singleton.mpr (.ifThen he h .none)
  doBlock h := forall_mem_singleton.mpr (.doBlock h)
  noArms := nofun
  arm _ he _ := forall_mem_singleton.mpr (.mk he (.assign (.leaf trivial) (.leaf trivial)))
  select default _ ha _ := forall_mem_singleton.mpr (.select ha fun step hstep => by
    obtain ⟨n, -, rfl⟩ := Option.map_eq_some_iff.mp hstep
    exact .assign (.leaf trivial) (.leaf trivial))

namespace Emission

section Constructs

variable {r : BindingRule} {around : List String → Prop}
  {fits : List String → Func → Prop} {taken : List String} {e : Rendition}
  {act body : Emit (List Lua.Stat)} {labels : List String}

theorem bindsAll_nested {code : List Lua.Stat} (h : Lua.Stat.BindsAll r taken code) :
    Lua.Stat.BindsAll r taken (nested labels code) := by
  induction labels with
  | nil => exact h
  | cons label rest ih =>
    refine forall_mem_singleton.mpr (.doBlock ?_)
    exact forall_mem_append.mpr ⟨ih, forall_mem_singleton.mpr (.leaf trivial)⟩

theorem always_jumpCode (note : String) (blocked missing : Finding) (jump : Jump) :
    Always (Lua.Stat.BindsAll r taken) (jumpCode note blocked missing jump) := by
  have hleaf {s : Lua.Stat} (h : s.IsLeaf) : Lua.Stat.BindsAll r taken [s] :=
    forall_mem_singleton.mpr (.leaf h)
  cases jump with
  | leave => exact .pure (hleaf trivial)
  | goTo name => exact .pure (hleaf trivial)
  | blocked => exact (always_any _).bind fun _ _ => .pure (hleaf trivial)
  | missing => exact (always_any _).bind fun _ _ => .pure (hleaf trivial)

theorem always_breakCode (label : Option String) (span : Span) :
    Always (Lua.Stat.BindsAll r taken) (breakCode label span) := by
  intro s hs
  rw [breakCode_eq]
  exact always_jumpCode _ _ _ _ s hs

theorem always_continueCode (label : Option String) (span : Span) :
    Always (Lua.Stat.BindsAll r taken) (continueCode label span) := by
  intro s hs
  rw [continueCode_eq]
  exact ⟨(always_jumpCode _ _ _ _ _ hs).1, trivial⟩

theorem always_loopBody (h : Always (Lua.Stat.BindsAll r taken) body) :
    Always (Lua.Stat.BindsAll r taken) (loopBody labels body) := by
  refine (h.enclosed _).bind fun result hc => .pure ?_
  refine forall_mem_append.mpr ⟨forall_mem_cons.mpr ⟨.doBlock hc, ?_⟩, ?_⟩
  · exact forall_mem_map.mpr fun _ _ => .leaf trivial
  · split
    · exact forall_mem_singleton.mpr (.leaf trivial)
    · exact nofun

theorem always_forInCode (hr : r.Lawful around fits) (ht : around taken) (ho : e.Binds r taken)
    {head : Emit (String × List Lua.Stat)}
    (hh : Always (fun h => r.control taken h.1 ∧ Lua.Stat.BindsAll r taken h.2) head)
    (hb : Always (Lua.Stat.BindsAll r taken) (loopBody labels body)) :
    Always (Lua.Stat.BindsAll r taken) (forInCode labels e head body) := by
  refine ho.value.bind fun _ ho => (always_fresh hr ht (by simp [stems])).bind fun _ hi => ?_
  refine hh.bind fun result hh => hb.bind fun _ hcode => .pure ?_
  refine forall_mem_singleton.mpr (.forIn hh.1 hi.2 (binds_helper_one _ ho) ?_)
  exact forall_mem_append.mpr ⟨hh.2, hcode⟩

theorem always_withCode (hr : r.Lawful around fits) (ht : around taken) (span : Span)
    (ho : e.Binds r taken) (hb : Always (Lua.Stat.BindsAll r taken) body) :
    Always (Lua.Stat.BindsAll r taken) (withCode span e body) := by
  refine (always_fresh hr ht (by simp [stems])).bind fun _ hp => ho.value.bind fun _ ho => ?_
  refine (hb.capturing.inFrame _).bind fun _ hcode => (always_any _).bind fun _ _ => .pure ?_
  exact forall_mem_singleton.mpr (.scoped hp.1 (binds_helper_one _ ho) hcode)

end Constructs

end Emission

end EcmaLua
