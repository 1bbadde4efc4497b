import EcmaLua.Proofs.Program.Nodes
import EcmaLua.Proofs.Surface.Lowering

/-!
# Nodes of the programs of scripts

What holds of a node of a program because the program was made from a script. Assignments and
updates write to places, declared functions have names, a `try` statement has one `catch` clause at
most, what is outside the subset can be named in a comment, and a place that can be reported comes
from an extent of the script. The head of a loop over keys is whatever the script has there. The
program of a regular script can be written in Lua: the other conditions are checked on the way, and
what fails them is outside the subset.
-/

namespace EcmaLua

namespace Fragment

/-- One for a call of `eval` by its name. -/
def evalCall : Fragment → Nat
  | .expr (.call (.ident name) _) => if name = "eval" then 1 else 0
  | _ => 0

/-- One for a construct outside the subset. -/
def outside : Fragment → Nat
  | .expr (.unsupported _) | .stmt (.unsupported _) => 1
  | _ => 0

/-- Whether nothing is asked of a fragment but of its parts. -/
def isPlain : Fragment → Bool
  | .expr (.ident _) | .expr (.update ..) | .expr (.assign ..) | .expr (.call ..)
  | .expr (.unsupported _) | .func _ | .decl _ | .clause _ | .head (.var ..) => false
  | .stmt (.funcStmt _) | .stmt (.breakStmt ..) | .stmt (.continueStmt ..)
  | .stmt (.forInStmt ..) | .stmt (.tryStmt ..) | .stmt (.withStmt ..) | .stmt (.labeled ..)
  | .stmt (.unsupported _) => false
  | _ => true

end Fragment

namespace Surface

open scoped List
open Lua (isRemark)

/-- A part of a script that its program depends on: an extent, or an expression that a loop over
keys writes to. -/
inductive Part where
  | extent (extent : Extent)
  | head (e : Expr)

def Pattern.parts : Pattern → List Part
  | .ident _ => []
  | .other _ extent => [.extent extent]

def Pattern.partsOpt : Option Pattern → List Part
  | none => []
  | some p => p.parts

def ForeignTarget.parts : ForeignTarget → List Part
  | .expr extent | .pattern _ extent => [.extent extent]

mutual

/-- The parts of an expression, at any depth. -/
def Expr.parts : Expr → List Part
  | .this | .ident _ | .null | .bool _ | .number _ | .string _ | .regex _ _ => []
  | .paren e => e.parts
  | .array elements extent => .extent extent :: Arg.partsElements elements
  | .object members => Member.parts members
  | .func _ f => f.parts
  | .unary _ arg => arg.parts
  | .update _ _ arg extent => .extent extent :: arg.parts
  | .binary _ left right extent => .extent extent :: (left.parts ++ right.parts)
  | .assign _ target value extent => .extent extent :: (target.parts ++ value.parts)
  | .assignForeign _ target extent => .extent extent :: target.parts
  | .cond test cons alt => test.parts ++ (cons.parts ++ alt.parts)
  | .member object _ => object.parts
  | .index object key => object.parts ++ key.parts
  | .call callee args extent => .extent extent :: (callee.parts ++ Arg.parts args)
  | .new callee args => callee.parts ++ Arg.parts args
  | .seq items => Expr.partsList items
  | .foreign _ extent => [.extent extent]

def Expr.partsList : List Expr → List Part
  | [] => []
  | e :: rest => e.parts ++ Expr.partsList rest

def Expr.partsOpt : Option Expr → List Part
  | none => []
  | some e => e.parts

def Arg.partsElements : List (Option Arg) → List Part
  | [] => []
  | none :: rest => Arg.partsElements rest
  | some ⟨none, e⟩ :: rest => e.parts ++ Arg.partsElements rest
  | some ⟨some dots, e⟩ :: rest => .extent dots :: (e.parts ++ Arg.partsElements rest)

def Arg.parts : List Arg → List Part
  | [] => []
  | ⟨none, e⟩ :: rest => e.parts ++ Arg.parts rest
  | ⟨some dots, e⟩ :: rest => .extent dots :: (e.parts ++ Arg.parts rest)

def Key.parts : Key → List Part
  | .ident _ | .string _ | .number _ | .bigint _ => []
  | .computed e => e.parts

def Member.parts : List Member → List Part
  | [] => []
  | .shorthand _ :: rest => Member.parts rest
  | .keyValue key value :: rest => key.parts ++ (value.parts ++ Member.parts rest)
  | .method key f :: rest => key.parts ++ (f.parts ++ Member.parts rest)
  | .getter key extent :: rest => .extent extent :: (key.parts ++ Member.parts rest)
  | .setter key extent :: rest => .extent extent :: (key.parts ++ Member.parts rest)
  | .assigned _ extent :: rest => .extent extent :: Member.parts rest
  | .spread dots e :: rest => .extent dots :: (e.parts ++ Member.parts rest)

def Func.parts : Func → List Part
  | ⟨params, body, _, _, extent⟩ =>
    .extent extent :: (params.flatMap Pattern.parts ++ Stmt.partsList body)

def Declarator.parts : List Declarator → List Part
  | [] => []
  | ⟨pattern, init⟩ :: rest => pattern.parts ++ (Expr.partsOpt init ++ Declarator.parts rest)

def ForInit.parts : ForInit → List Part
  | .none => []
  | .vars _ decls => Declarator.parts decls
  | .expr e => e.parts

def ForInHead.parts : ForInHead → List Part
  | .var _ pattern => Pattern.partsOpt pattern
  | .target e => .head e :: e.parts
  | .pattern _ extent | .usingDecl extent => [.extent extent]

def Catch.parts : Option Catch → List Part
  | none => []
  | some ⟨param, body⟩ => Pattern.partsOpt param ++ Stmt.partsList body

def Case.parts : List Case → List Part
  | [] => []
  | ⟨test, body⟩ :: rest => Expr.partsOpt test ++ (Stmt.partsList body ++ Case.parts rest)

/-- The parts of a statement, at any depth. -/
def Stmt.parts : Stmt → List Part
  | .empty => []
  | .exprStmt e => e.parts
  | .block body => Stmt.partsList body
  | .varStmt _ decls => Declarator.parts decls
  | .funcStmt _ f => f.parts
  | .returnStmt arg => Expr.partsOpt arg
  | .throwStmt arg => arg.parts
  | .breakStmt _ extent | .continueStmt _ extent => [.extent extent]
  | .ifStmt test cons alt => test.parts ++ (cons.parts ++ Stmt.partsOpt alt)
  | .whileStmt test body => test.parts ++ body.parts
  | .doWhileStmt body test => body.parts ++ test.parts
  | .forStmt init test update body =>
    init.parts ++ (Expr.partsOpt test ++ (Expr.partsOpt update ++ body.parts))
  | .forInStmt head object body extent =>
    .extent extent :: (head.parts ++ (object.parts ++ body.parts))
  | .switchStmt discriminant cases => discriminant.parts ++ Case.parts cases
  | .tryStmt block handler finalizer extent =>
    .extent extent :: (Stmt.partsList block ++ (Catch.parts handler ++ Stmt.partsBlock finalizer))
  | .withStmt object body extent => .extent extent :: (object.parts ++ body.parts)
  | .labeled _ body => body.parts
  | .foreign _ extent => [.extent extent]

def Stmt.partsList : List Stmt → List Part
  | [] => []
  | s :: rest => s.parts ++ Stmt.partsList rest

def Stmt.partsOpt : Option Stmt → List Part
  | none => []
  | some s => s.parts

def Stmt.partsBlock : Option (List Stmt) → List Part
  | none => []
  | some body => Stmt.partsList body

end

/-- The parts of a script, at any depth. -/
def Script.parts (script : Script) : List Part := Stmt.partsList script.body

section Lowered

variable (numbering : Numbering) (P : Part → Prop)

/-- The place of an extent with the property. -/
def Placed (span : Span) : Prop := ∃ extent, P (.extent extent) ∧ span = numbering.span extent

/-- What is found while a program is made: a direct `eval`, at such a place. -/
def Noted (finding : Finding) : Prop := ∃ span, Placed numbering P span ∧ finding = .directEval span

/-- A construct that can be named in a comment, at such a place. -/
def Refused (node : Unsupported) : Prop :=
  isRemark node.kind = true ∧ Placed numbering P node.span

/-- A node as a script with such parts makes it. -/
def Lowered : Node → Prop
  | .assign _ target _ => target.isTarget = true
  | .update _ _ arg => arg.isTarget = true
  | .initializer _ _ | .forIn (.var _ _) => True
  | .function f => f.name ≠ none
  | .forIn (.target e) => ∃ head findings, P (.head head) ∧ e = (head.toCore numbering findings).1
  | .attempt clauses span => clauses ≤ 1 ∧ Placed numbering P span
  | .breaks span | .continues span | .withScope span => Placed numbering P span
  | .unsupported node => Refused numbering P node

/-- How many of the findings report a direct `eval`. -/
def evalReports (findings : List Finding) : Nat :=
  findings.countP (·.code = .dynamicEval)

end Lowered

/-- What is known of a script: where its extents are, what holds of its parts, and whether it is
regular. -/
structure Origin where
  numbering : Numbering
  allowed : Part → Prop
  regular : Prop

namespace Origin

/-- What holds of the parts of a script holds of these, and something is regular if the script
is. -/
structure Suits (o : Origin) (parts : List Part) (regular : Prop) : Prop where
  parts : ∀ x ∈ parts, o.allowed x
  regular : o.regular → regular

namespace Suits

variable {o : Origin} {x : Part} {a b : List Part} {r s : Prop}

theorem head (h : o.Suits (x :: a) r) : o.allowed x := h.parts x List.mem_cons_self

theorem tail (h : o.Suits (x :: a) r) : o.Suits a r :=
  ⟨fun y hy => h.parts y (List.mem_cons_of_mem x hy), h.regular⟩

theorem left (h : o.Suits (a ++ b) (r ∧ s)) : o.Suits a r :=
  ⟨fun y hy => h.parts y (List.mem_append_left b hy), fun hr => (h.regular hr).1⟩

theorem right (h : o.Suits (a ++ b) (r ∧ s)) : o.Suits b s :=
  ⟨fun y hy => h.parts y (List.mem_append_right a hy), fun hr => (h.regular hr).2⟩

/-- A condition without parts in front. -/
theorem front (h : o.Suits a (r ∧ s)) (hr : o.regular) : r := (h.regular hr).1

theorem rest (h : o.Suits a (r ∧ s)) : o.Suits a s := ⟨h.parts, fun hr => (h.regular hr).2⟩

theorem nameless (h : o.Suits a r) : o.Suits a (RegularName none ∧ r) :=
  ⟨h.parts, fun hr => ⟨trivial, h.regular hr⟩⟩

end Suits

/-- A fragment as it is made from its parts, with what is noted. -/
structure Fits (o : Origin) (noted : List Finding) (p : Fragment) : Prop where
  node : ∀ n ∈ p.node, Lowered o.numbering o.allowed n
  abides : o.regular → p.Abides .spellable
  outside : p.outside = 0
  evalCall : p.evalCall = evalReports noted
  noted : ∀ finding ∈ noted, Noted o.numbering o.allowed finding

/-- What can be made of fragments while a program is made, and what is noted: fragments from their
parts, and constructs outside the subset in the place of anything. -/
inductive Builds (o : Origin) : List Finding → List Fragment → List Fragment → Prop
  | perm {a b} (h : a ~ b) : Builds o [] a b
  | before {noted b} (a) (h : Builds o noted [] b) : Builds o noted a (a ++ b)
  | behind {noted a b} (c) (h : Builds o noted a b) : Builds o noted (a ++ c) (b ++ c)
  | trans {noted noted' a b c} (h : Builds o noted a b) (h' : Builds o noted' b c) :
      Builds o (noted ++ noted') a c
  | node {noted a p} (h : o.Fits noted p) (hparts : a ~ p.parts) : Builds o noted a [p]
  | refused {node} (a) (h : Refused o.numbering o.allowed node) :
      Builds o [] a [.expr (.unsupported node)]
  /-- what is made besides is dropped -/
  | kept {node} (a) : Builds o [] (a ++ [.expr (.unsupported node)]) [.expr (.unsupported node)]
  | statement {node} : Builds o [] [.expr (.unsupported node)] [.stmt (.unsupported node)]

variable {o : Origin} {noted : List Finding} {a b : List Fragment} {p : Fragment}

theorem Fits.quiet (hnode : ∀ n ∈ p.node, Lowered o.numbering o.allowed n)
    (habides : o.regular → p.Abides .spellable) (hin : p.outside = 0) (hcall : p.evalCall = 0) :
    o.Fits [] p :=
  ⟨hnode, habides, hin, hcall, nofun⟩

theorem Builds.same : o.Builds [] a a := .perm .rfl

theorem Builds.plain (h : p.isPlain = true) (hparts : a ~ p.parts) : o.Builds [] a [p] := by
  refine .node ?_ hparts
  rcases p with x | x | x | x | x | x | x | x | x <;> cases x <;> cases h <;>
    exact .quiet nofun (fun _ => trivial) rfl rfl

/-- The nodes of a fragment are such, and it can be written in Lua if the script is regular. -/
def Sound (o : Origin) (p : Fragment) : Prop :=
  (∀ n ∈ p.nodes, Lowered o.numbering o.allowed n) ∧ (o.regular → p.Obeys .spellable)

theorem Fits.sound (h : o.Fits noted p) (hparts : ∀ q ∈ p.parts, o.Sound q) : o.Sound p := by
  refine ⟨?_, fun hr => p.obeys_iff.mpr ⟨h.abides hr, fun q hq => (hparts q hq).2 hr⟩⟩
  rw [Fragment.reads_nodes]
  simp only [Fragment.isOpen_true, if_true, List.forall_mem_append, List.forall_mem_flatMap]
  exact ⟨h.node, fun q hq => (hparts q hq).1⟩

theorem Builds.sound (h : o.Builds noted a b) (ha : ∀ q ∈ a, o.Sound q) : ∀ q ∈ b, o.Sound q := by
  induction h with
  | perm h => exact fun q hq => ha q (h.mem_iff.mpr hq)
  | before a _ ih => exact List.forall_mem_append.mpr ⟨ha, ih nofun⟩
  | behind c _ ih =>
    rw [List.forall_mem_append] at ha ⊢
    exact ⟨ih ha.1, ha.2⟩
  | trans _ _ ih ih' => exact ih' (ih ha)
  | node h hparts =>
    exact List.forall_mem_singleton.mpr (h.sound fun q hq => ha q (hparts.mem_iff.mpr hq))
  | refused a h =>
    exact List.forall_mem_singleton.mpr ⟨List.forall_mem_singleton.mpr h, fun _ => h.1⟩
  | kept a => exact (List.forall_mem_append.mp ha).2
  | @statement node =>
    have hnode : o.Sound (.expr (.unsupported node)) := ha _ List.mem_cons_self
    exact List.forall_mem_singleton.mpr hnode

theorem Builds.all_noted (h : o.Builds noted a b) :
    ∀ finding ∈ noted, Noted o.numbering o.allowed finding := by
  induction h with
  | before _ _ ih | behind _ _ ih => exact ih
  | trans _ _ ih ih' => exact List.forall_mem_append.mpr ⟨ih, ih'⟩
  | node h => exact h.noted
  | perm | refused | kept | statement => nofun

section Actions

variable {α β : Type} {made : List Fragment} {view : α → List Fragment} {view' : β → List Fragment}
  {Q : α → Prop}

/-- The result of the action is made of the fragments made before. -/
def Reports (o : Origin) (made : List Fragment) (view : α → List Fragment) (act : Collect α) :
    Prop :=
  ∀ s, ∃ noted, (act s).2 = s ++ noted ∧ o.Builds noted made (view (act s).1)

theorem Reports.pure {a : α} (h : o.Builds [] made (view a)) :
    o.Reports made view (Pure.pure a : Collect α) :=
  fun s => ⟨[], (List.append_nil s).symm, h⟩

/-- What was made before stays beside what the first action makes. -/
theorem Reports.bindOn {x : Collect α} {f : α → Collect β} (hx : o.Reports [] view x)
    (hq : ∀ s, Q (x s).1) (hf : ∀ a, Q a → o.Reports (made ++ view a) view' (f a)) :
    o.Reports made view' (x >>= f) := by
  intro s
  obtain ⟨first, hfirst, hx⟩ := hx s
  obtain ⟨second, hsecond, hf⟩ := hf (x s).1 (hq s) (x s).2
  refine ⟨first ++ second, ?_, (hx.before made).trans hf⟩
  rw [← List.append_assoc, ← hfirst]
  exact hsecond

theorem Reports.bind {x : Collect α} {f : α → Collect β} (hx : o.Reports [] view x)
    (hf : ∀ a, o.Reports (made ++ view a) view' (f a)) : o.Reports made view' (x >>= f) :=
  hx.bindOn (Q := fun _ => True) (fun _ => trivial) fun a _ => hf a

/-- What there is of an attempt: its result, or the construct at which it stopped. -/
def outcome (view : α → List Fragment) : Except Unsupported α → List Fragment
  | .ok a => view a
  | .error node => [.expr (.unsupported node)]

/-- As `Reports`, for an attempt. -/
def Attempts (o : Origin) (made : List Fragment) (view : α → List Fragment) (act : Attempt α) :
    Prop :=
  o.Reports made (outcome view) act.run

theorem Attempts.pure {a : α} (h : o.Builds [] made (view a)) :
    o.Attempts made view (Pure.pure a : Attempt α) :=
  show o.Reports made (outcome view) (Pure.pure (.ok a)) from .pure h

theorem Attempts.throw {kind : String} {category : Category} {extent : Extent}
    (hk : isRemark kind = true) (h : o.allowed (.extent extent)) : o.Attempts made view
      (MonadExcept.throw (foreignNode o.numbering kind category extent) : Attempt α) :=
  show o.Reports made (outcome view) (Pure.pure (.error _)) from
    .pure (.refused _ ⟨hk, extent, h, rfl⟩)

theorem Attempts.bindOn {x : Attempt α} {f : α → Attempt β} (hx : o.Attempts [] view x)
    (hq : Finishes Q x) (hf : ∀ a, Q a → o.Attempts (made ++ view a) view' (f a)) :
    o.Attempts made view' (x >>= f) := by
  change o.Reports made _ (x.run >>= ExceptT.bindCont f)
  have hok (s) : ∀ a, (x.run s).1 = .ok a → Q a := hq s
  refine Reports.bindOn (Q := fun r => ∀ a, r = .ok a → Q a) hx hok fun result hr => ?_
  cases result with
  | ok a => exact hf a (hr a rfl)
  | error node => exact .pure (.kept made)

theorem Attempts.bind {x : Attempt α} {f : α → Attempt β} (hx : o.Attempts [] view x)
    (hf : ∀ a, o.Attempts (made ++ view a) view' (f a)) : o.Attempts made view' (x >>= f) :=
  hx.bindOn (Q := fun _ => True) (fun _ _ _ => trivial) fun a _ => hf a

theorem Reports.lift {x : Collect α} (hx : o.Reports made view x) :
    o.Attempts made view (x : Attempt α) :=
  hx

theorem Attempts.orElse {x : Attempt α} (hx : o.Attempts [] view x) {otherwise : Unsupported → α}
    (ho : ∀ node, o.Builds [] [.expr (.unsupported node)] (view (otherwise node))) :
    o.Reports [] view (Attempt.orElse otherwise x) := by
  refine Reports.bind hx fun result => ?_
  cases result with
  | ok a => exact .pure .same
  | error node => exact .pure (ho node)

end Actions

section Constructs

/-- An expression that is made. -/
abbrev exprs (e : EcmaLua.Expr) : List Fragment := [.expr e]

/-- A statement that is made. -/
abbrev stmts (s : EcmaLua.Stmt) : List Fragment := [.stmt s]

theorem Builds.foreign {kind : String} {category : Category} {extent : Extent}
    (hk : isRemark kind = true) (h : o.allowed (.extent extent)) :
    o.Builds [] a (exprs (.unsupported (foreignNode o.numbering kind category extent))) :=
  .refused a ⟨hk, extent, h, rfl⟩

theorem Builds.named {name : String} (h : o.regular → isIdentifier name = true) :
    o.Builds [] [] (exprs (.ident name)) :=
  .node (.quiet nofun h rfl rfl) .rfl

theorem Reports.expr {x : Attempt EcmaLua.Expr} (h : o.Attempts [] exprs x) :
    o.Reports [] exprs (Attempt.orElse .unsupported x) :=
  h.orElse fun _ => .same

theorem Reports.stmt {x : Attempt EcmaLua.Stmt} (h : o.Attempts [] stmts x) :
    o.Reports [] stmts (Attempt.orElse .unsupported x) :=
  h.orElse fun _ => .statement

variable {extent : Extent} (hx : o.allowed (.extent extent))

include hx

theorem builds_updateCore (op : UpdateOp) (leading : Bool) (arg : EcmaLua.Expr) :
    o.Builds [] (exprs arg) (exprs (updateCore o.numbering op leading arg extent)) := by
  unfold updateCore
  split
  · next ht => exact .node (.quiet (List.forall_mem_singleton.mpr ht) (fun _ => ht) rfl rfl) .rfl
  · exact .foreign (by decide) hx

theorem builds_binaryCore (op : BinOp) (left right : EcmaLua.Expr) :
    o.Builds [] (exprs left ++ exprs right)
      (exprs (binaryCore o.numbering op left right extent)) := by
  cases op with
  | plain op | logical op => exact .plain rfl .rfl
  | nullish => exact .foreign (by decide) hx

theorem reports_assignCore (op : AssignOp) {target value : Collect EcmaLua.Expr}
    (ht : o.Reports [] exprs target) (hv : o.Reports [] exprs value) :
    o.Reports [] exprs (assignCore o.numbering op target value extent) := by
  unfold assignCore
  split
  · exact .pure (.foreign (by decide) hx)
  · refine ht.bind fun _ => ?_
    split
    · next ht =>
        refine hv.bind fun _ => .pure (.node (.quiet ?_ (fun _ => ht) rfl rfl) .rfl)
        exact List.forall_mem_singleton.mpr ht
    · exact .pure (.foreign (by decide) hx)

theorem builds_assignForeignCore (op : AssignOp) {target : ForeignTarget}
    (ht : ∀ x ∈ target.parts, o.allowed x) :
    o.Builds [] [] (exprs (assignForeignCore o.numbering op target extent)) := by
  unfold assignForeignCore
  split
  · exact .foreign (by decide) hx
  · cases target with
    | expr inner => exact .foreign (by decide) (ht _ List.mem_cons_self)
    | pattern kind inner => exact .foreign kind.isRemark_text (ht _ List.mem_cons_self)

/-- A direct `eval` is noted with the extent of the call. -/
theorem reports_callCore {callee : Collect EcmaLua.Expr} (hf : o.Reports [] exprs callee)
    (args : List EcmaLua.Expr) :
    o.Reports (args.map .expr) exprs (callCore o.numbering callee args extent) := by
  refine hf.bind fun f => ?_
  have hcall : Fragment.evalCall (.expr (.call f args)) = if isEval f then 1 else 0 := by
    cases f <;> simp [Fragment.evalCall, isEval]
  have hparts : args.map .expr ++ exprs f ~ (Fragment.expr (.call f args)).parts :=
    List.perm_append_singleton _ _
  split
  · next heval =>
      rw [if_pos heval] at hcall
      have hnoted : Noted o.numbering o.allowed (.directEval (o.numbering.span extent)) :=
        ⟨_, ⟨extent, hx, rfl⟩, rfl⟩
      refine fun s => ⟨[.directEval (o.numbering.span extent)], rfl, .node ?_ hparts⟩
      exact ⟨nofun, fun _ => trivial, rfl, hcall, List.forall_mem_singleton.mpr hnoted⟩
  · next hother =>
      rw [if_neg hother] at hcall
      exact .pure (.node (.quiet nofun (fun _ => trivial) rfl hcall) hparts)

end Constructs

theorem reports_functionCore {f : Attempt EcmaLua.Func}
    (h : o.Attempts [] (fun f => [.func f]) f) : o.Reports [] exprs (functionCore f) :=
  .expr (h.bind fun _ => .pure (.plain rfl .rfl))

/-- The fragments of a key. -/
def keyView : PropName ⊕ EcmaLua.Expr → List Fragment
  | .inl _ => []
  | .inr e => exprs e

theorem builds_stringKey (points : Points) : o.Builds [] [] (keyView (stringKey points)) := by
  unfold stringKey
  split
  · exact .same
  · exact .plain rfl .rfl

theorem builds_members (key : PropName ⊕ EcmaLua.Expr) {value : EcmaLua.Expr}
    (h : o.Builds [] a (keyView key ++ exprs value)) (rest : List Property) :
    o.Builds [] (a ++ rest.map .prop) ((Key.property value key :: rest).map .prop) := by
  have hone : o.Builds [] (keyView key ++ exprs value) [.prop (Key.property value key)] := by
    cases key <;> exact .plain rfl .rfl
  exact (h.trans hone).behind _

theorem builds_declarator {name : String} (hname : o.regular → isIdentifier name = true)
    (value : Option EcmaLua.Expr) :
    o.Builds [] (value.toList.map .expr) [.decl ⟨name, value⟩] := by
  refine .node (.quiet ?_ hname rfl rfl) .rfl
  cases value with
  | none => nofun
  | some e => exact List.forall_mem_singleton.mpr trivial

end Origin

section Names

variable {o : Origin}

theorem nameOpt_of_regularName {name : Option String} (h : RegularName name) :
    Rules.spellable.NameOpt name := by
  cases name with
  | none => trivial
  | some name => exact h

/-- Only names come of the attempt, which have the property if the script is regular. -/
structure Origin.Names {α : Type} (o : Origin) (Q : α → Prop) (act : Attempt α) : Prop where
  attempts : o.Attempts [] (fun _ => []) act
  finishes : Finishes (fun a => o.regular → Q a) act

theorem Origin.Names.pure {α : Type} {Q : α → Prop} {a : α} (h : o.regular → Q a) :
    o.Names Q (Pure.pure a : Attempt α) :=
  ⟨.pure .same, .pure h⟩

theorem Origin.Names.bind {α β : Type} {Q : α → Prop} {Q' : β → Prop} {x : Attempt α}
    {f : α → Attempt β} (hx : o.Names Q x) (hf : ∀ a, (o.regular → Q a) → o.Names Q' (f a)) :
    o.Names Q' (x >>= f) :=
  ⟨hx.attempts.bindOn hx.finishes fun a ha => (hf a ha).attempts,
    hx.finishes.bindOn fun a ha => (hf a ha).finishes⟩

theorem Pattern.names_toCore : {p : Pattern} → o.Suits p.parts p.Regular →
    o.Names (isIdentifier · = true) (p.toCore o.numbering)
  | .ident _, h => .pure h.regular
  | .other kind _, h => ⟨.throw kind.isRemark_text h.head, nofun⟩

theorem Pattern.names_toCoreOpt : {p : Option Pattern} →
    o.Suits (Pattern.partsOpt p) (Pattern.RegularOpt p) →
    o.Names Rules.spellable.NameOpt (Pattern.toCoreOpt o.numbering p)
  | none, _ => .pure fun _ => trivial
  | some _, h => (Pattern.names_toCore h).bind fun _ hn => .pure hn

theorem Pattern.names_toCoreList {ps : List Pattern}
    (h : o.Suits (ps.flatMap Pattern.parts) (∀ p ∈ ps, p.Regular)) :
    o.Names (∀ n ∈ ·, isIdentifier n = true) (Pattern.toCoreList o.numbering ps) := by
  induction ps with
  | nil => exact .pure nofun
  | cons p rest ih =>
    simp only [List.flatMap_cons, List.forall_mem_cons] at h
    refine (Pattern.names_toCore h.left).bind fun _ hn => (ih h.right).bind fun _ hns => .pure ?_
    exact fun hr => List.forall_mem_cons.mpr ⟨hn hr, hns hr⟩

/-- A function gets the name that it is given. -/
theorem Func.finishes_toCore (numbering : Numbering) (name : Option String) (f : Func) :
    Finishes (fun g => g.name = name) (f.toCore numbering name) := by
  obtain ⟨params, body, isGenerator, isAsync, extent⟩ := f
  rw [Func.toCore]
  split
  · nofun
  split
  · nofun
  exact .bind fun _ => .bind fun _ => .pure rfl

/-- There is one clause at most. -/
theorem Catch.finishes_toCore (numbering : Numbering) (handler : Option Catch) :
    Finishes (fun clauses => clauses.length ≤ 1) (Catch.toCore numbering handler) := by
  rcases handler with _ | ⟨param, body⟩
  · exact .pure (Nat.zero_le 1)
  · refine .bind fun _ => .bind fun _ => .pure ?_
    exact Nat.le_refl 1

/-- An expression in the head of a loop over keys stays what it is. -/
theorem ForInHead.finishes_toCore (extent : Extent) : (head : ForInHead) →
    o.Suits head.parts head.Regular →
    Finishes (fun h => Lowered o.numbering o.allowed (.forIn h) ∧
      (o.regular → ∀ object body, (Fragment.stmt (.forInStmt h object body)).Abides .spellable))
      (head.toCore o.numbering extent)
  | .var _ (some _), _ => .bind fun _ => .pure ⟨trivial, fun _ _ _ => trivial⟩
  | .target e, h => by
    rintro findings _ ⟨⟩
    refine ⟨⟨e, findings, h.head, rfl⟩, fun hr _ _ => ?_⟩
    exact (e.isTarget_toCore o.numbering findings).trans (h.tail.front hr)
  | .var _ none, _ | .pattern _ _, _ | .usingDecl _, _ => nofun

end Names

section Walk

open Origin

variable (o : Origin)

mutual

theorem Expr.builds_toCore : (e : Expr) → o.Suits e.parts e.Regular →
    o.Reports [] exprs (e.toCore o.numbering)
  | .this, _ | .null, _ | .bool _, _ | .number _, _ | .string _, _ | .regex _ _, _ =>
    .pure (.plain rfl .rfl)
  | .ident _, h => .pure (.named h.regular)
  | .paren e, h => Expr.builds_toCore e h
  | .array elements extent, h =>
    .expr ((Arg.builds_toCoreElements extent h.head elements h.tail).bind fun _ =>
      .pure (.plain rfl .rfl))
  | .object members, h =>
    .expr ((Member.builds_toCore members h).bind fun _ => .pure (.plain rfl .rfl))
  | .func name f, h => reports_functionCore (Func.builds_toCore name f h)
  | .unary _ arg, h | .member arg _, h =>
    (Expr.builds_toCore arg h).bind fun _ => .pure (.plain rfl .rfl)
  | .update op leading arg _, h => (Expr.builds_toCore arg h.tail).bind fun a =>
    .pure (builds_updateCore h.head op leading a)
  | .binary op left right _, h => (Expr.builds_toCore left h.tail.left).bind fun l =>
    (Expr.builds_toCore right h.tail.right).bind fun r => .pure (builds_binaryCore h.head op l r)
  | .assign op target value _, h => reports_assignCore h.head op
    (Expr.builds_toCore target h.tail.left) (Expr.builds_toCore value h.tail.right)
  | .assignForeign op _ _, h => .pure (builds_assignForeignCore h.head op h.tail.parts)
  | .cond test cons alt, h => (Expr.builds_toCore test h.left).bind fun _ =>
    (Expr.builds_toCore cons h.right.left).bind fun _ =>
      (Expr.builds_toCore alt h.right.right).bind fun _ => .pure (.plain rfl .rfl)
  | .index object key, h => (Expr.builds_toCore key h.right).bind fun _ =>
    (Expr.builds_toCore object h.left).bind fun _ => .pure (.plain rfl (.swap ..))
  | .call callee args _, h => .expr ((Arg.builds_toCore args h.tail.right).bind fun values =>
    (reports_callCore h.head (Expr.builds_toCore callee h.tail.left) values).lift)
  | .new callee args, h => .expr ((Arg.builds_toCore args h.right).bind fun _ =>
    (Expr.builds_toCore callee h.left).lift.bind fun _ =>
      .pure (.plain rfl (List.perm_append_singleton _ _)))
  | .seq items, h => (Expr.builds_toCoreList items h).bind fun _ => .pure (.plain rfl .rfl)
  | .foreign kind _, h => .pure (.foreign kind.isRemark_text h.head)

theorem Expr.builds_toCoreList :
    (es : List Expr) → o.Suits (Expr.partsList es) (Expr.RegularList es) →
    o.Reports [] (List.map .expr) (Expr.toCoreList o.numbering es)
  | [], _ => .pure .same
  | e :: rest, h => (Expr.builds_toCore e h.left).bind fun _ =>
    (Expr.builds_toCoreList rest h.right).bind fun _ => .pure .same

theorem Arg.builds_toCoreElements (extent : Extent) (hx : o.allowed (.extent extent)) :
    (elements : List (Option Arg)) →
    o.Suits (Arg.partsElements elements) (Arg.RegularElements elements) →
    o.Attempts [] (·.flatMap (·.toList.map .expr))
      (Arg.toCoreElements o.numbering extent elements)
  | [], _ => .pure .same
  | none :: rest, h => (Arg.builds_toCoreElements extent hx rest h).bind fun _ => .pure .same
  | some ⟨none, e⟩ :: rest, h => (Expr.builds_toCore e h.left).lift.bind fun _ =>
    (Arg.builds_toCoreElements extent hx rest h.right).bind fun _ => .pure .same
  | some ⟨some _, _⟩ :: _, _ => .throw (by decide) hx

theorem Arg.builds_toCore : (args : List Arg) → o.Suits (Arg.parts args) (Arg.Regular args) →
    o.Attempts [] (List.map .expr) (Arg.toCore o.numbering args)
  | [], _ => .pure .same
  | ⟨none, e⟩ :: rest, h => (Expr.builds_toCore e h.left).lift.bind fun _ =>
    (Arg.builds_toCore rest h.right).bind fun _ => .pure .same
  | ⟨some _, _⟩ :: _, h => .throw (by decide) h.head

theorem Expr.builds_toCoreOpt : (e : Option Expr) → o.Suits (Expr.partsOpt e) (Expr.RegularOpt e) →
    o.Reports [] (·.toList.map .expr) (Expr.toCoreOpt o.numbering e)
  | none, _ => .pure .same
  | some e, h => (Expr.builds_toCore e h).bind fun _ => .pure .same

theorem Key.builds_toCore : (key : Key) → o.Suits key.parts key.Regular →
    o.Reports [] keyView (key.toCore o.numbering)
  | .ident _, _ | .number _, _ | .bigint _, _ => .pure .same
  | .string points, _ => .pure (builds_stringKey points)
  | .computed e, h => (Expr.builds_toCore e h).bind fun _ => .pure .same

theorem Member.builds_toCore : (members : List Member) →
    o.Suits (Member.parts members) (Member.Regular members) →
    o.Attempts [] (List.map .prop) (Member.toCore o.numbering members)
  | [], _ => .pure .same
  | .shorthand name :: rest, h => by
    have hvalue : o.Builds [] [] (exprs (.ident name)) := .named h.front
    exact (Member.builds_toCore rest h.rest).bind fun _ =>
      .pure (builds_members (.inl (.ident name)) hvalue _)
  | .keyValue key value :: rest, h => (Key.builds_toCore key h.left).lift.bind fun k =>
    (Expr.builds_toCore value h.right.left).lift.bind fun _ =>
      (Member.builds_toCore rest h.right.right).bind fun _ => .pure (builds_members k .same _)
  | .method key f :: rest, h => (Key.builds_toCore key h.left).lift.bind fun k =>
    (reports_functionCore (Func.builds_toCore none f h.right.left.nameless)).lift.bind fun _ =>
      (Member.builds_toCore rest h.right.right).bind fun _ => .pure (builds_members k .same _)
  | .getter key _ :: rest, h | .setter key _ :: rest, h =>
    (Key.builds_toCore key h.tail.left).lift.bind fun k =>
      (Member.builds_toCore rest h.tail.right).bind fun _ =>
        .pure (builds_members k (Builds.before _ (.foreign (by decide) h.head)) _)
  | .assigned name _ :: rest, h => (Member.builds_toCore rest h.tail).bind fun _ =>
    .pure (builds_members (.inl (.ident name)) (.foreign (by decide) h.head) _)
  | .spread _ _ :: _, h => .throw (by decide) h.head

theorem Func.builds_toCore (name : Option String) : (f : Func) →
    o.Suits f.parts (RegularName name ∧ f.Regular) →
    o.Attempts [] (fun g => [.func g]) (f.toCore o.numbering name)
  | ⟨params, body, isGenerator, isAsync, extent⟩, h => by
    rw [Func.toCore]
    split
    · exact .throw (by decide) h.head
    split
    · exact .throw (by decide) h.head
    have hparams := Pattern.names_toCoreList h.tail.rest.left
    refine hparams.attempts.bindOn hparams.finishes fun names hnames => ?_
    refine (Stmt.builds_toCoreList body h.tail.rest.right).lift.bind fun _ => .pure ?_
    exact .node
      (.quiet nofun (fun hr => ⟨nameOpt_of_regularName (h.front hr), hnames hr⟩) rfl rfl) .rfl

theorem Declarator.builds_toCore : (decls : List Declarator) →
    o.Suits (Declarator.parts decls) (Declarator.Regular decls) →
    o.Attempts [] (List.map .decl) (Declarator.toCore o.numbering decls)
  | [], _ => .pure .same
  | ⟨pattern, init⟩ :: rest, h => by
    have hname := Pattern.names_toCore h.left
    refine hname.attempts.bindOn hname.finishes fun name hn => ?_
    refine (Expr.builds_toCoreOpt init h.right.left).lift.bind fun value => ?_
    refine (Declarator.builds_toCore rest h.right.right).bind fun _ => .pure ?_
    exact (builds_declarator hn value).behind _

theorem ForInit.builds_toCore : (init : ForInit) → o.Suits init.parts init.Regular →
    o.Reports [] (fun i => [.init i]) (init.toCore o.numbering)
  | .none, _ => .pure (.plain rfl .rfl)
  | .vars _ decls, h => by
    refine Attempts.orElse ?_ fun _ => .plain rfl .rfl
    exact (Declarator.builds_toCore decls h).bind fun _ => .pure (.plain rfl .rfl)
  | .expr e, h => (Expr.builds_toCore e h).bind fun _ => .pure (.plain rfl .rfl)

theorem ForInHead.builds_toCore (extent : Extent) (hx : o.allowed (.extent extent)) :
    (head : ForInHead) → o.Suits head.parts head.Regular →
    o.Attempts [] (fun h => [.head h]) (head.toCore o.numbering extent)
  | .var _ (some _), h => by
    have hname := Pattern.names_toCore h
    refine hname.attempts.bindOn hname.finishes fun name hn => .pure ?_
    exact .node (.quiet nofun hn rfl rfl) .rfl
  | .target e, h =>
    (Expr.builds_toCore e h.tail.rest).lift.bind fun _ => .pure (.plain rfl .rfl)
  | .var _ none, _ => .throw (by decide) hx
  | .pattern kind _, h => .throw kind.isRemark_text h.head
  | .usingDecl _, h => .throw (by decide) h.head

theorem Catch.builds_toCore : (handler : Option Catch) →
    o.Suits (Catch.parts handler) (Catch.Regular handler) →
    o.Attempts [] (List.map .clause) (Catch.toCore o.numbering handler)
  | none, _ => .pure .same
  | some ⟨param, body⟩, h => by
    have hparam := Pattern.names_toCoreOpt h.left
    refine hparam.attempts.bindOn hparam.finishes fun _ hn => ?_
    refine (Stmt.builds_toCoreList body h.right).lift.bind fun _ => .pure ?_
    exact .node (.quiet nofun hn rfl rfl) .rfl

theorem Case.builds_toCore : (cases : List Case) → o.Suits (Case.parts cases) (Case.Regular cases) →
    o.Reports [] (List.map .case) (Case.toCore o.numbering cases)
  | [], _ => .pure .same
  | ⟨test, body⟩ :: rest, h => by
    refine (Expr.builds_toCoreOpt test h.left).bind fun t => ?_
    refine (Stmt.builds_toCoreList body h.right.left).bind fun code => ?_
    refine (Case.builds_toCore rest h.right.right).bind fun _ => .pure ?_
    exact (Builds.plain (p := .case ⟨t, code⟩) rfl .rfl).behind _

theorem Stmt.builds_toCore : (s : Stmt) → o.Suits s.parts s.Regular →
    o.Reports [] stmts (s.toCore o.numbering)
  | .empty, _ => .pure (.plain rfl .rfl)
  | .breakStmt _ extent, h | .continueStmt _ extent, h => by
    refine .pure (.node (.quiet ?_ (nameOpt_of_regularName ∘ h.regular) rfl rfl) .rfl)
    exact List.forall_mem_singleton.mpr ⟨extent, h.head, rfl⟩
  | .exprStmt e, h | .throwStmt e, h =>
    (Expr.builds_toCore e h).bind fun _ => .pure (.plain rfl .rfl)
  | .block body, h => (Stmt.builds_toCoreList body h).bind fun _ => .pure (.plain rfl .rfl)
  | .varStmt _ decls, h =>
    .stmt ((Declarator.builds_toCore decls h).bind fun _ => .pure (.plain rfl .rfl))
  | .funcStmt name f, h => by
    refine .stmt ((Func.builds_toCore (some name) f h).bindOn
      (f.finishes_toCore o.numbering (some name)) fun g hg => .pure ?_)
    refine .node (.quiet (List.forall_mem_singleton.mpr ?_) (fun hr => ?_) rfl rfl) .rfl
    · exact fun hnone => Option.some_ne_none name (hg.symm.trans hnone)
    · simp only [Fragment.Abides, hg]
      exact h.front hr
  | .returnStmt arg, h => (Expr.builds_toCoreOpt arg h).bind fun _ => .pure (.plain rfl .rfl)
  | .ifStmt test cons alt, h => (Expr.builds_toCore test h.left).bind fun _ =>
    (Stmt.builds_toCore cons h.right.left).bind fun _ =>
      (Stmt.builds_toCoreOpt alt h.right.right).bind fun _ => .pure (.plain rfl .rfl)
  | .whileStmt test body, h => (Expr.builds_toCore test h.left).bind fun _ =>
    (Stmt.builds_toCore body h.right).bind fun _ => .pure (.plain rfl .rfl)
  | .doWhileStmt body test, h => (Stmt.builds_toCore body h.left).bind fun _ =>
    (Expr.builds_toCore test h.right).bind fun _ => .pure (.plain rfl .rfl)
  | .forStmt init test update body, h => by
    refine (ForInit.builds_toCore init h.left).bind fun _ => ?_
    refine (Expr.builds_toCoreOpt test h.right.left).bind fun _ => ?_
    refine (Expr.builds_toCoreOpt update h.right.right.left).bind fun _ => ?_
    exact (Stmt.builds_toCore body h.right.right.right).bind fun _ => .pure (.plain rfl .rfl)
  | .forInStmt head object body extent, h => by
    refine .stmt ((ForInHead.builds_toCore extent h.head head h.tail.left).bindOn
      (ForInHead.finishes_toCore extent head h.tail.left) fun _ hh => ?_)
    refine (Expr.builds_toCore object h.tail.right.left).lift.bind fun _ => ?_
    refine (Stmt.builds_toCore body h.tail.right.right).lift.bind fun _ => .pure ?_
    exact .node (.quiet (List.forall_mem_singleton.mpr hh.1) (fun hr => hh.2 hr _ _) rfl rfl) .rfl
  | .switchStmt discriminant cases, h => (Expr.builds_toCore discriminant h.left).bind fun _ =>
    (Case.builds_toCore cases h.right).bind fun _ => .pure (.plain rfl .rfl)
  | .tryStmt block handler finalizer extent, h => by
    refine .stmt ((Catch.builds_toCore handler h.tail.right.left).bindOn
      (Catch.finishes_toCore o.numbering handler) fun _ hone => ?_)
    refine (Stmt.builds_toCoreList block h.tail.left).lift.bind fun _ => ?_
    refine (Stmt.builds_toCoreBlock finalizer h.tail.right.right).lift.bind fun _ => .pure ?_
    refine .node (.quiet ?_ (fun _ => trivial) rfl rfl) (List.perm_append_comm.append_right _)
    exact List.forall_mem_singleton.mpr ⟨hone, extent, h.head, rfl⟩
  | .withStmt object body extent, h => by
    refine (Expr.builds_toCore object h.tail.left).bind fun _ => ?_
    refine (Stmt.builds_toCore body h.tail.right).bind fun _ => .pure ?_
    refine .node (.quiet ?_ (fun _ => trivial) rfl rfl) .rfl
    exact List.forall_mem_singleton.mpr ⟨extent, h.head, rfl⟩
  | .labeled _ body, h => (Stmt.builds_toCore body h.rest).bind fun _ =>
    .pure (.node (.quiet nofun h.front rfl rfl) .rfl)
  | .foreign kind _, h => .pure (Builds.trans (.foreign kind.isRemark_text h.head) .statement)

theorem Stmt.builds_toCoreList : (body : List Stmt) →
    o.Suits (Stmt.partsList body) (Stmt.RegularList body) →
    o.Reports [] (List.map .stmt) (Stmt.toCoreList o.numbering body)
  | [], _ => .pure .same
  | s :: rest, h => (Stmt.builds_toCore s h.left).bind fun _ =>
    (Stmt.builds_toCoreList rest h.right).bind fun _ => .pure .same

theorem Stmt.builds_toCoreOpt : (s : Option Stmt) → o.Suits (Stmt.partsOpt s) (Stmt.RegularOpt s) →
    o.Reports [] (·.toList.map .stmt) (Stmt.toCoreOpt o.numbering s)
  | none, _ => .pure .same
  | some s, h => (Stmt.builds_toCore s h).bind fun _ => .pure .same

theorem Stmt.builds_toCoreBlock : (body : Option (List Stmt)) →
    o.Suits (Stmt.partsBlock body) (Stmt.RegularBlock body) →
    o.Reports [] (·.toList.flatMap (List.map .stmt)) (Stmt.toCoreBlock o.numbering body)
  | none, _ => .pure .same
  | some body, h => (Stmt.builds_toCoreList body h).bind fun _ => .pure (.perm (by simp))

end

end Walk

/-- A program is built from the script, with what is found. -/
theorem Script.builds_toProgram {o : Origin} {script : Script}
    (h : o.Suits script.parts script.Regular) :
    o.Builds (script.toProgram o.numbering).2 []
      ((script.toProgram o.numbering).1.body.map .stmt) := by
  obtain ⟨noted, hnoted, hbuilds⟩ := Stmt.builds_toCoreList o script.body h []
  have hall : (script.toProgram o.numbering).2 = noted := hnoted
  exact hall ▸ hbuilds

/-- Every node of a script's program is as the script makes it, and so is all that is found. -/
theorem Script.lowered_toProgram (numbering : Numbering) {P : Part → Prop} {script : Script}
    (h : ∀ x ∈ script.parts, P x) :
    (∀ n ∈ (script.toProgram numbering).1.nodes, Lowered numbering P n) ∧
      ∀ finding ∈ (script.toProgram numbering).2, Noted numbering P finding := by
  have hbuilds := Script.builds_toProgram (o := ⟨numbering, P, False⟩) ⟨h, False.elim⟩
  refine ⟨fun n hn => ?_, hbuilds.all_noted⟩
  have hnodes : Stmt.nodesList = List.flatMap EcmaLua.Stmt.nodes :=
    Fragment.eq_flatMap rfl fun _ _ => rfl
  rw [Program.nodes, hnodes] at hn
  obtain ⟨s, hs, hn⟩ := List.mem_flatMap.mp hn
  exact (hbuilds.sound nofun (.stmt s) (List.mem_map_of_mem hs)).1 n hn

/-- The program of a regular script can be written in Lua. -/
theorem Script.obeys_toProgram (numbering : Numbering) {script : Script} (h : script.Regular) :
    (script.toProgram numbering).1.Obeys .spellable := by
  have hbuilds := Script.builds_toProgram (o := ⟨numbering, fun _ => True, True⟩)
    ⟨fun _ _ => trivial, fun _ => h⟩
  refine Stmt.obeysList_iff.mpr fun s hs => ?_
  exact (hbuilds.sound nofun (.stmt s) (List.mem_map_of_mem hs)).2 trivial

end Surface

end EcmaLua
