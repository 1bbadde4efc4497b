import EcmaLua.Proofs.Emission.Block
import EcmaLua.Surface.ToCore

/-!
# Regular scripts and their places

What a reader of scripts promises: identifiers and labels are not empty and start with no digit,
and the head of a `for`-`in` loop is a place. On the way to a program places stay places, and every
construct outside the subset has a kind that can be named in a comment.
-/

namespace EcmaLua.Surface

open Lua (isRemark)

/-- Whether an expression is an identifier or a member of the subset, in parentheses or not. -/
def Expr.isCorePlace : Expr → Bool
  | .ident _ | .member .. | .index .. => true
  | .paren e => e.isCorePlace
  | _ => false

def RegularName : Option String → Prop
  | none => True
  | some name => isIdentifier name = true

def Pattern.Regular : Pattern → Prop
  | .ident name => isIdentifier name = true
  | .other .. => True

def Pattern.RegularOpt : Option Pattern → Prop
  | none => True
  | some p => p.Regular

mutual

/-- Every identifier and label can be spelled, and every head of a `for`-`in` loop that is an
expression is a place. -/
def Expr.Regular : Expr → Prop
  | .this | .null | .bool _ | .number _ | .string _ | .regex .. => True
  | .assignForeign .. | .foreign .. => True
  | .ident name => isIdentifier name = true
  | .paren e => e.Regular
  | .array elements _ => Arg.RegularElements elements
  | .object members => Member.Regular members
  | .func name f => RegularName name ∧ f.Regular
  | .unary _ arg => arg.Regular
  | .update _ _ arg _ => arg.Regular
  | .binary _ left right _ => left.Regular ∧ right.Regular
  | .assign _ target value _ => target.Regular ∧ value.Regular
  | .cond test cons alt => test.Regular ∧ cons.Regular ∧ alt.Regular
  | .member object _ => object.Regular
  | .index object key => object.Regular ∧ key.Regular
  | .call callee args _ => callee.Regular ∧ Arg.Regular args
  | .new callee args => callee.Regular ∧ Arg.Regular args
  | .seq items => Expr.RegularList items

def Expr.RegularList : List Expr → Prop
  | [] => True
  | e :: rest => e.Regular ∧ Expr.RegularList rest

def Expr.RegularOpt : Option Expr → Prop
  | none => True
  | some e => e.Regular

def Arg.RegularElements : List (Option Arg) → Prop
  | [] => True
  | none :: rest => Arg.RegularElements rest
  | some ⟨_, e⟩ :: rest => e.Regular ∧ Arg.RegularElements rest

def Arg.Regular : List Arg → Prop
  | [] => True
  | ⟨_, e⟩ :: rest => e.Regular ∧ Arg.Regular rest

def Key.Regular : Key → Prop
  | .computed e => e.Regular
  | .ident _ | .string _ | .number _ | .bigint _ => True

def Member.Regular : List Member → Prop
  | [] => True
  | .shorthand name :: rest => isIdentifier name = true ∧ Member.Regular rest
  | .keyValue key value :: rest => key.Regular ∧ value.Regular ∧ Member.Regular rest
  | .method key f :: rest => key.Regular ∧ f.Regular ∧ Member.Regular rest
  | .getter key _ :: rest => key.Regular ∧ Member.Regular rest
  | .setter key _ :: rest => key.Regular ∧ Member.Regular rest
  | .assigned _ _ :: rest => Member.Regular rest
  | .spread _ e :: rest => e.Regular ∧ Member.Regular rest

def Func.Regular : Func → Prop
  | ⟨params, body, _, _, _⟩ => (∀ p ∈ params, p.Regular) ∧ Stmt.RegularList body

def Declarator.Regular : List Declarator → Prop
  | [] => True
  | ⟨pattern, init⟩ :: rest => pattern.Regular ∧ Expr.RegularOpt init ∧ Declarator.Regular rest

def ForInit.Regular : ForInit → Prop
  | .none => True
  | .vars _ decls => Declarator.Regular decls
  | .expr e => e.Regular

def ForInHead.Regular : ForInHead → Prop
  | .var _ pattern => Pattern.RegularOpt pattern
  | .target e => e.isCorePlace = true ∧ e.Regular
  | .pattern .. | .usingDecl _ => True

def Catch.Regular : Option Catch → Prop
  | none => True
  | some ⟨param, body⟩ => Pattern.RegularOpt param ∧ Stmt.RegularList body

def Case.Regular : List Case → Prop
  | [] => True
  | ⟨test, body⟩ :: rest => Expr.RegularOpt test ∧ Stmt.RegularList body ∧ Case.Regular rest

def Stmt.Regular : Stmt → Prop
  | .empty | .foreign .. => True
  | .exprStmt e => e.Regular
  | .block body => Stmt.RegularList body
  | .varStmt _ decls => Declarator.Regular decls
  | .funcStmt name f => isIdentifier name = true ∧ f.Regular
  | .returnStmt arg => Expr.RegularOpt arg
  | .throwStmt arg => arg.Regular
  | .breakStmt label _ | .continueStmt label _ => RegularName label
  | .ifStmt test cons alt => test.Regular ∧ cons.Regular ∧ Stmt.RegularOpt alt
  | .whileStmt test body => test.Regular ∧ body.Regular
  | .doWhileStmt body test => body.Regular ∧ test.Regular
  | .forStmt init test update body =>
    init.Regular ∧ Expr.RegularOpt test ∧ Expr.RegularOpt update ∧ body.Regular
  | .forInStmt head object body _ => head.Regular ∧ object.Regular ∧ body.Regular
  | .switchStmt discriminant cases => discriminant.Regular ∧ Case.Regular cases
  | .tryStmt block handler finalizer _ =>
    Stmt.RegularList block ∧ Catch.Regular handler ∧ Stmt.RegularBlock finalizer
  | .withStmt object body _ => object.Regular ∧ body.Regular
  | .labeled label body => isIdentifier label = true ∧ body.Regular

def Stmt.RegularList : List Stmt → Prop
  | [] => True
  | s :: rest => s.Regular ∧ Stmt.RegularList rest

def Stmt.RegularOpt : Option Stmt → Prop
  | none => True
  | some s => s.Regular

def Stmt.RegularBlock : Option (List Stmt) → Prop
  | none => True
  | some body => Stmt.RegularList body

end

def Script.Regular (script : Script) : Prop := Stmt.RegularList script.body

/-- Every result of the attempt has the property, whatever is noted on the way. -/
def Finishes {α : Type} (P : α → Prop) (act : Attempt α) : Prop :=
  ∀ findings a, (act.run findings).1 = .ok a → P a

section Finishes

variable {α β : Type} {P : α → Prop}

theorem Finishes.pure {a : α} (h : P a) : Finishes P (Pure.pure a : Attempt α) := by
  rintro findings _ ⟨⟩
  exact h

theorem Finishes.bindOn {Q : β → Prop} {x : Attempt β} {f : β → Attempt α} (hx : Finishes Q x)
    (hf : ∀ b, Q b → Finishes P (f b)) : Finishes P (x >>= f) := by
  intro findings a ha
  change (ExceptT.bindCont f (x.run findings).1 (x.run findings).2).1 = .ok a at ha
  cases hrun : (x.run findings).1 with
  | ok b =>
    rw [hrun] at ha
    exact hf b (hx findings b hrun) _ a ha
  | error node =>
    rw [hrun] at ha
    cases ha

theorem Finishes.bind {x : Attempt β} {f : β → Attempt α} (hf : ∀ b, Finishes P (f b)) :
    Finishes P (x >>= f) :=
  Finishes.bindOn (Q := fun _ => True) (fun _ _ _ => trivial) fun b _ => hf b

theorem Finishes.lift {x : Collect α} (hx : ∀ findings, P (x findings).1) :
    Finishes P (x : Attempt α) := by
  rintro findings _ ⟨⟩
  exact hx findings

theorem Finishes.orElse {x : Attempt α} (hx : Finishes P x) {otherwise : Unsupported → α}
    (ho : ∀ node, P (otherwise node)) (findings : List Finding) :
    P (x.orElse otherwise findings).1 := by
  have hrun : Ensures (fun _ => True) (fun result => ∀ a, result = .ok a → P a) x.run :=
    fun before hs => ⟨hx before, hs⟩
  refine (hrun.bind fun result hr => ?_) findings trivial |>.1
  cases result with
  | ok a => exact .pure (hr a rfl)
  | error node => exact .pure (ho node)

end Finishes

section Kinds

theorem ForeignExpr.isRemark_text (kind : ForeignExpr) : isRemark kind.text = true := by
  cases kind <;> decide

theorem ForeignStmt.isRemark_text (kind : ForeignStmt) : isRemark kind.text = true := by
  cases kind <;> decide

theorem PatternKind.isRemark_text (kind : PatternKind) : isRemark kind.text = true := by
  cases kind <;> decide

end Kinds

section Places

variable (numbering : Numbering)

/-- What stands in for an attempt is no place. -/
theorem isTarget_orElse {x : Attempt EcmaLua.Expr} (hx : Finishes (fun e => e.isTarget = false) x)
    (findings : List Finding) : (x.orElse .unsupported findings).1.isTarget = false :=
  hx.orElse (fun _ => rfl) findings

/-- A place stays one, and nothing else becomes one. -/
theorem Expr.isTarget_toCore : (e : Expr) → ∀ findings,
    (e.toCore numbering findings).1.isTarget = e.isCorePlace
  | .this, _ | .ident _, _ | .null, _ | .bool _, _ | .number _, _ | .string _, _ | .regex _ _, _
  | .unary _ _, _ | .cond _ _ _, _ | .member _ _, _ | .index _ _, _ | .seq _, _
  | .foreign _ _, _ => rfl
  | .paren e, findings => Expr.isTarget_toCore e findings
  | .array _ _, findings | .object _, findings | .func _ _, findings =>
    isTarget_orElse (.bind fun _ => .pure rfl) findings
  | .new _ _, findings => isTarget_orElse (.bind fun _ => .bind fun _ => .pure rfl) findings
  | .call callee _ extent, findings => by
    refine isTarget_orElse (.bind fun _ => .lift fun before => ?_) findings
    change ((if isEval (callee.toCore numbering before).1 = true then _ else _ :
      Collect EcmaLua.Expr) _).1.isTarget = false
    split <;> rfl
  | .update op leading arg extent, findings => by
    change (updateCore numbering op leading (arg.toCore numbering findings).1 extent).isTarget = _
    unfold updateCore
    split <;> rfl
  | .binary op _ _ _, _ => by cases op <;> rfl
  | .assign op target value extent, findings => by
    cases op with
    | logical => rfl
    | plain | compound =>
      change ((if (target.toCore numbering findings).1.isTarget = true then _ else _ :
        Collect EcmaLua.Expr) _).1.isTarget = false
      split <;> rfl
  | .assignForeign op target _, _ => by
    cases op <;> cases target <;> rfl

end Places

end EcmaLua.Surface
