import EcmaLua.Proofs.Emission.Actions
import EcmaLua.Proofs.Emission.Landing
import EcmaLua.Proofs.Program.Rules

/-!
# Judgements about emitted code

A judgement says what is asked of Lua code, in each place that code can have. It is lawful when it
follows the forms that emission puts code together from, and when the results of actions can be
judged along their sequences. A lawful judgement holds of the code of every use of an expression,
and of that of a statement, once it holds of the code of the parts. The body of a construct is
judged where the construct makes it: behind a wall, or as the body of a loop.
-/

namespace EcmaLua.Emission

open Lua (Helper Stat Field Arm)

/-- What is asked of Lua code. -/
structure Judgement where
  value : Lua.Expr → Prop
  /-- an expression in front of a call or an index -/
  operand : Lua.Expr → Prop
  /-- an expression that is assigned to -/
  place : Lua.Expr → Prop
  /-- a call that is a statement -/
  action : Lua.Expr → Prop
  args : List Lua.Expr → Prop
  fields : List Field → Prop
  arms : List Arm → Prop
  /-- code that others can follow -/
  code : List Stat → Prop
  block : List Stat → Prop
  /-- the body of a Lua function -/
  body : List Stat → Prop
  /-- a name that is made up for a local -/
  temporary : String → Prop
  /-- a name of the program that is bound in code -/
  parameter : String → Prop
  /-- whether a place is asked for no more than a value -/
  lax : Prop

/-- The judgement follows the forms of code. That the results of an action have a property is
`W`. -/
structure Judgement.Lawful (J : Judgement) (W : {α : Type} → (α → Prop) → Emit α → Prop) :
    Prop where
  pure : ∀ {α} {P : α → Prop} {a}, P a → W P (Pure.pure a)
  bind : ∀ {α β} {P : α → Prop} {Q : β → Prop} {x : Emit α} {f : α → Emit β},
    W P x → (∀ a, P a → W Q (f a)) → W Q (x >>= f)
  lookup : ∀ name, W (fun _ => True) (lookup name)
  report : ∀ finding, W (fun _ => True) (report finding)
  fresh : ∀ {stem}, stem ∈ stems → W J.temporary (fresh stem)
  declareNew : ∀ names, W (fun _ => True) (declareNew names)
  inFrame : ∀ {α} {P : α → Prop} {x} frame, W P x → W P (inFrame frame x)
  ofOperand : ∀ {e}, J.operand e → J.value e
  ofPlace : ∀ {e}, J.place e → J.operand e
  ofAction : ∀ {e}, J.action e → J.operand e
  ofLax : ∀ {e}, J.lax → J.value e → J.place e
  nil : J.operand .nil
  int : ∀ n, J.value (.int n)
  literal : ∀ l, J.value (Rendition.literalValue l)
  fixed : ∀ {name}, name ∈ fixedNames → J.place (.name name)
  ofTemporary : ∀ {name}, J.temporary name → J.place (.name name)
  paren : ∀ {e}, J.value e → J.operand (.paren e)
  neg : ∀ {e}, J.action e → J.value (.unop .neg e)
  not : ∀ {e}, J.value e → J.value (.unop .not e)
  binop : ∀ op {a b}, J.value a → J.value b → J.value (.binop op a b)
  call : ∀ {f es}, J.operand f → J.args es → J.action (.call f es)
  helper : ∀ (h : Helper) {es}, J.args es → J.action (h.call es)
  field : ∀ {e} name, J.operand e → J.place (.field e name)
  index : ∀ {e k}, J.operand e → J.value k → J.place (.index e k)
  table : ∀ {fs}, J.fields fs → J.value (.table fs)
  assigning : ∀ {t e result}, J.place t → J.value e → J.value result →
    J.value (.lambda [.assign t e] result)
  saving : ∀ {name old t e}, J.temporary name → J.value old → J.place t → J.value e →
    J.value (.lambda [.define name old, .assign t e] (.name name))
  none : J.args []
  cons : ∀ {e es}, J.value e → J.args es → J.args (e :: es)
  items : ∀ {es}, J.args es → J.fields (es.map .item)
  keyed : ∀ {fs k e}, J.value k → J.value e → J.fields fs → J.fields (.keyed k e :: fs)
  snoc : ∀ {fs k e}, J.fields fs → J.value k → J.value e → J.fields (fs ++ [.keyed k e])
  guarded : ∀ {b}, J.body b → J.value (.call (.name "pcall") [.func [] false b])
  closure : ∀ {names b}, (∀ n ∈ names, J.parameter n) → J.body b →
    J.value (.paren (.func names false b))
  named : ∀ {name f}, J.parameter (Lua.spell name) → J.action f →
    J.action (.call (.paren (.func [] false [.declare [Lua.spell name],
      .assign (.name (Lua.spell name)) f, .ret (.name (Lua.spell name))])) [])
  empty : J.code []
  append : ∀ {a b}, J.code a → J.code b → J.code (a ++ b)
  ofCode : ∀ {b}, J.code b → J.block b
  before : ∀ {a b}, J.code a → J.block b → J.block (a ++ b)
  ret : ∀ {e}, J.value e → J.block [.ret e]
  act : ∀ {e}, J.action e → J.code [.call e]
  assign : ∀ {t e}, J.place t → J.value e → J.code [.assign t e]
  note : ∀ {text}, text ∈ fixedNotes → J.code [.note text]
  marker : ∀ {text}, text ∈ fixedNotes → J.code [.marker text]
  define : ∀ {names e}, names ≠ [] → (∀ n ∈ names, J.temporary n) → J.value e →
    J.code [.define names e]
  ifThen : ∀ {e b}, J.value e → J.block b → J.code [.ifThen e b .none]
  doBlock : ∀ {b}, J.block b → J.code [.doBlock b]
  noArms : J.arms []
  arm : ∀ {e name} n, J.value e → J.temporary name → J.arms [.mk e (.assign (.name name) (.int n))]
  select : ∀ {as name} (default : Option Nat), as ≠ [] → J.arms as → J.temporary name →
    J.code [.select as (default.map fun n => .assign (.name name) (.int n))]

/-- The judgement holds of the code of every use of an expression. -/
structure Rendition.Lawful (J : Judgement) (W : {α : Type} → (α → Prop) → Emit α → Prop)
    (writable : Bool) (r : Rendition) : Prop where
  value : W J.value r.value
  unguarded : W J.value r.unguarded
  target : J.lax ∨ writable = true → W J.place r.target
  effect : W J.code r.effect
  base : W J.operand r.base
  key : ∀ k, J.value k → J.value (r.key k)
  invoke : ∀ args, W J.args args → W J.action (r.invoke args)
  delete : W J.operand r.delete

theorem Rendition.Lawful.forget {J : Judgement}
    {W : {α : Type} → (α → Prop) → Emit α → Prop} {w : Bool} {r : Rendition}
    (h : r.Lawful J W w) : r.Lawful J W false :=
  { h with target := fun hw => h.target (.inl (hw.resolve_right nofun)) }

namespace Judgement.Lawful

variable {J : Judgement} {W : {α : Type} → (α → Prop) → Emit α → Prop} (c : J.Lawful W)

include c

section Actions

variable {α β : Type} {P Q : α → Prop} {R : β → Prop} {x : Emit α}

/-- The last step of an action. -/
theorem last {f : α → β} (hx : W P x) (h : ∀ a, P a → R (f a)) :
    W R (x >>= fun a => Pure.pure (f a)) :=
  c.bind hx fun a ha => c.pure (h a ha)

theorem mono (hx : W P x) (h : ∀ a, P a → Q a) : W Q x := c.last hx h

end Actions

section Trees

variable {e a b : Lua.Expr} {es : List Lua.Expr}

theorem ofCall (h : J.action e) : J.value e := c.ofOperand (c.ofAction h)

theorem one (h : J.value e) : J.args [e] := c.cons h c.none

theorem two (ha : J.value a) (hb : J.value b) : J.args [a, b] := c.cons ha (c.one hb)

theorem string (text : String) : J.value (.string text) := c.literal (.string text)

theorem bool (b : Bool) : J.operand (.paren (.bool b)) := c.paren (c.literal (.bool b))

theorem name {name : String} (h : J.temporary name) : J.value (.name name) :=
  c.ofOperand (c.ofPlace (c.ofTemporary h))

theorem self : J.place (.name "self") := c.fixed (by decide)

theorem binaryValue (op : BinaryOp) (ha : J.value a) (hb : J.value b) :
    J.operand (Rendition.binaryValue op a b) := by
  unfold Rendition.binaryValue
  split
  · next helper _ =>
      have hcall := c.helper helper (c.two ha hb)
      dsimp only
      split
      · exact c.paren (c.not (c.ofCall hcall))
      · exact c.ofAction hcall
  · exact c.paren (c.binop _ ha hb)

theorem stepped (op : UpdateOp) (h : J.value e) : J.value (Rendition.stepped op e) := by
  cases op with
  | increment => exact c.ofCall (c.helper .plus (c.two h (c.int 1)))
  | decrement => exact c.ofOperand (c.paren (c.binop .sub h (c.int 1)))

theorem performing {steps : List Lua.Step} (h : J.value (.lambda steps e)) :
    J.operand (Rendition.performing steps e) :=
  c.paren (c.ofCall (c.call (c.paren h) c.none))

theorem propName (key : PropName) : J.value (Rendition.propName key) := by
  cases key <;> exact c.string _

end Trees

section Renditions

variable {value : Emit Lua.Expr} {args : Emit (List Lua.Expr)} {w w₁ w₂ : Bool}
  {l r test cons alt : Rendition}

theorem drop (h : W J.value value) : W J.code (Rendition.drop value) :=
  c.last h fun _ he => c.act (c.helper .sink (c.one he))

theorem ofValue (h : W J.operand value) (ht : w = true → W J.place value) :
    (Rendition.ofValue value).Lawful J W w where
  value := c.mono h fun _ => c.ofOperand
  unguarded := c.mono h fun _ => c.ofOperand
  target := fun hw => hw.elim (fun hl => c.mono h fun _ he => c.ofLax hl (c.ofOperand he)) ht
  effect := c.drop (c.mono h fun _ => c.ofOperand)
  base := h
  key := fun _ => id
  invoke := fun _ ha => c.bind h fun _ hf => c.last ha fun _ => c.call hf
  delete := c.pure (c.bool false)

/-- A value that is not assigned to, unless all values can be. -/
theorem plain (h : W J.operand value) : (Rendition.ofValue value).Lawful J W false :=
  c.ofValue h nofun

theorem bareName {name : String} (h : J.place (.name (Lua.spell name))) :
    W J.place (Rendition.bareName name) :=
  c.last (c.lookup name) fun _ _ => h

theorem ident {name : String} (h : J.place (.name (Lua.spell name)))
    (hr : J.operand (.read (Lua.spell name))) : (Rendition.ident name).Lawful J W w := by
  have hread : W J.operand (Rendition.readName name) := by
    refine c.last (c.lookup name) fun resolution _ => ?_
    split
    · exact c.ofPlace h
    · exact hr
  have hkey : ∀ k, J.value k → J.value ((Rendition.ident name).key k) := by
    intro k hk
    unfold Rendition.ident
    dsimp only
    split
    · exact c.binop .add hk (c.int 1)
    · exact hk
  exact
    { c.plain hread with
      unguarded := c.mono (c.bareName h) fun _ he => c.ofOperand (c.ofPlace he)
      target := fun _ => c.bareName h
      key := hkey
      delete := c.pure (c.ofAction (c.helper .delete
        (c.two (c.ofOperand (c.ofPlace c.self)) (c.string name)))) }

theorem this : Rendition.this.Lawful J W w :=
  { c.ofValue (w := w) (c.pure (c.ofPlace c.self)) fun _ => c.pure c.self with
    delete := c.pure (c.bool true) }

/-- A literal is a value only; it has parentheses in front of an index. -/
theorem lit (literal : Literal) : (Rendition.literal literal).Lawful J W false where
  value := c.pure (c.literal literal)
  unguarded := c.pure (c.literal literal)
  target := fun hw => c.pure (c.ofLax (hw.resolve_right nofun) (c.literal literal))
  effect := c.drop (c.pure (c.literal literal))
  base := c.pure (c.paren (c.literal literal))
  key := fun _ => id
  invoke := fun _ ha => c.last ha fun _ => c.helper .literalCallFail
  delete := c.pure (c.bool false)

theorem function (h : W J.action value) : (Rendition.function value).Lawful J W false :=
  { c.plain (c.mono h fun _ => c.ofAction) with
    invoke := fun _ ha => c.bind h fun _ hf => c.last ha fun _ => c.call (c.paren (c.ofCall hf)) }

theorem binary (op : BinaryOp) (hl : l.Lawful J W w) (hr : r.Lawful J W w₁) :
    (l.binary op r).Lawful J W false :=
  c.plain (c.bind hl.value fun _ ha => c.last hr.value fun _ => c.binaryValue op ha)

theorem logical (op : LogicalOp) (hl : l.Lawful J W w) (hr : r.Lawful J W w₁) :
    (l.logical op r).Lawful J W false :=
  c.plain (c.bind hl.value fun _ ha => c.last hr.value fun _ hb => c.paren (c.binop _ ha hb))

theorem unary (op : UnaryOp) (h : r.Lawful J W w) : (r.unary op).Lawful J W false := by
  refine c.plain ?_
  cases op with
  | minus => exact c.last h.value fun _ he => c.paren (c.neg (c.helper .toNumber (c.one he)))
  | plus => exact c.last h.value fun _ he => c.paren (c.ofCall (c.helper .toNumber (c.one he)))
  | not =>
    exact c.last h.value fun _ he => c.paren (c.not (c.ofCall (c.helper .toBoolean (c.one he))))
  | bitNot => exact c.last h.value fun _ he => c.ofAction (c.helper .bitNot (c.one he))
  | typeof => exact c.last h.unguarded fun _ he => c.ofAction (c.helper .typeof (c.one he))
  | void => exact c.pure c.nil
  | delete => exact h.delete

theorem conditional (ht : test.Lawful J W w) (hc : cons.Lawful J W w₁) (ha : alt.Lawful J W w₂) :
    (test.conditional cons alt).Lawful J W false := by
  refine c.plain (c.bind ht.value fun _ ht => c.bind hc.value fun _ hc => ?_)
  refine c.last ha.value fun _ ha => c.paren (c.binop _ (c.ofOperand (c.paren ?_)) ?_)
  · have hsave {e : Lua.Expr} (he : J.value e) : J.value (Helper.ternarySave.call [e]) :=
      c.ofCall (c.helper .ternarySave (c.one he))
    have htest := c.ofCall (c.helper .toBoolean (c.one ht))
    exact c.binop _ (c.binop _ htest (hsave hc)) (hsave ha)
  · exact c.ofCall (c.helper .ternaryRestore c.none)

theorem update (op : UpdateOp) (leading : Bool) (h : r.Lawful J W w) (hw : J.lax ∨ w = true) :
    (r.update op leading).Lawful J W false := by
  have hvalue : W J.operand (r.update op leading).value := by
    refine c.bind (h.target hw) fun target ht => c.bind h.value fun current hc => ?_
    split
    · exact c.pure (c.performing (c.assigning ht (c.stepped op hc) hc))
    · exact c.last (c.fresh (by decide)) fun _ hn =>
        c.performing (c.saving hn hc ht (c.stepped op hc))
  exact
    { c.plain hvalue with
      effect := c.bind (h.target hw) fun _ ht => c.last h.value fun _ hc =>
        c.assign ht (c.stepped op hc) }

theorem assignment (op : Option BinaryOp) (hl : l.Lawful J W w) (hw : J.lax ∨ w = true)
    (hr : r.Lawful J W w₁) : (l.assign op r).Lawful J W false := by
  have hnew : W J.value (l.assigned op r) := by
    cases op with
    | none => exact hr.value
    | some op =>
      exact c.bind hl.value fun _ ha => c.last hr.value fun _ hb =>
        c.ofOperand (c.binaryValue op ha hb)
  have hvalue : W J.operand (l.assign op r).value :=
    c.bind (hl.target hw) fun _ ht => c.bind hnew fun _ hn => c.last hl.value fun _ he =>
      c.performing (c.assigning ht hn he)
  exact
    { c.plain hvalue with
      effect := c.bind (hl.target hw) fun _ ht => c.last hnew fun _ => c.assign ht }

theorem invocation (hf : r.Lawful J W w) (ha : W J.args args) :
    (r.call args).Lawful J W false :=
  { c.plain (c.mono (hf.invoke args ha) fun _ => c.ofAction) with
    effect := c.last (hf.invoke args ha) fun _ => c.act }

theorem new (hf : r.Lawful J W w) (ha : W J.args args) : (r.new args).Lawful J W false :=
  c.plain (c.bind hf.value fun _ hc => c.last ha fun _ has =>
    c.ofAction (c.helper .new (c.cons hc has)))

theorem method {object key : Emit Lua.Expr} (ho : W J.value object) (hk : W J.value key)
    (ha : W J.args args) : W J.action (Rendition.method object key args) :=
  c.bind ho fun _ ho => c.bind hk fun _ hk => c.last ha fun _ has =>
    c.helper .callMember (c.cons ho (c.cons hk has))

theorem member (h : r.Lawful J W w) (name : String) : (r.member name).Lawful J W true := by
  have hplace : W J.place (r.member name).target := c.last h.base fun _ => c.field name
  have hvalue : W J.operand (r.member name).value := by
    unfold Rendition.member
    simp only [Rendition.ofValue]
    split
    · exact c.last h.value fun _ he => c.ofAction (c.helper .length (c.one he))
    · exact c.mono hplace fun _ => c.ofPlace
  exact
    { c.plain hvalue with
      target := fun _ => hplace
      invoke := fun _ ha => c.method h.value (c.pure (c.string name)) ha
      delete := c.last h.value fun _ he =>
        c.ofAction (c.helper .delete (c.two he (c.string name))) }

theorem element (ho : l.Lawful J W w) (hk : r.Lawful J W w₁) : (l.index r).Lawful J W true := by
  have hposition : W J.value (do Pure.pure (l.key (← r.value)) : Emit Lua.Expr) :=
    c.last hk.value ho.key
  have hplace : W J.place (l.index r).value :=
    c.bind ho.base fun _ hb => c.last hposition fun _ => c.index hb
  exact
    { c.ofValue (w := true) (c.mono hplace fun _ => c.ofPlace) fun _ => hplace with
      invoke := fun _ ha => c.method ho.value hposition ha
      delete := c.bind ho.value fun _ ho => c.last hk.value fun _ hk =>
        c.ofAction (c.helper .delete (c.two ho hk)) }

theorem sequence {effects : Emit (List Stat)} (ha : W J.args args) (he : W J.code effects) :
    (Rendition.sequence args effects).Lawful J W false :=
  { c.plain (c.last ha fun _ hi =>
      c.ofPlace (c.index (c.paren (c.table (c.items hi))) (c.int _))) with
    effect := he }

theorem array (count : Nat) {fields : Emit (List Field)} (h : W J.fields fields) :
    (Rendition.array count fields).Lawful J W false :=
  c.plain (c.last h fun _ hi => c.ofAction (c.helper .makeArray
    (c.one (c.table (c.snoc hi (c.string "__Length") (c.int count))))))

theorem object {fields : Emit (List Field)} (h : W J.fields fields) :
    (Rendition.object fields).Lawful J W false :=
  c.plain (c.last h fun _ hi => c.ofAction (c.helper .makeObject (c.one (c.table hi))))

theorem unsupported {node : Unsupported} (h : J.value (.noted .nil node.kind))
    (hs : J.code [.note node.kind]) : (Rendition.unsupported node).Lawful J W false :=
  { c.plain (c.last (c.report _) fun _ _ => c.paren h) with
    effect := c.last (c.report _) fun _ _ => hs }

end Renditions

end Judgement.Lawful

/-- The locals of a `try` statement are temporaries of the judgement. -/
structure TryNames.Lawful (J : Judgement) (names : TryNames) : Prop where
  status : J.temporary names.status
  value : J.temporary names.value
  catchValue : J.temporary names.catchValue
  finalizer : J.temporary names.finalizer
  handler : J.temporary names.handler

/-- The call of the finalizer, if there is one. -/
def finishCalls (names : TryNames) : Option (List Stat) → List Stat
  | none => []
  | some _ => [.call (.call (.name names.finalizer) [])]

namespace Judgement.Lawful

variable {J : Judgement} {W : {α : Type} → (α → Prop) → Emit α → Prop} (c : J.Lawful W)
  {w : Bool} {r : Rendition} {tests : Option Rendition} {e : Option Expr}
  {value literal : Emit Lua.Expr} {init update body : Emit (List Stat)} {labels : List String}

include c

theorem condition (h : r.Lawful J W w) : W J.value (condition r) :=
  c.last h.value fun _ he => c.ofCall (c.helper .toBoolean (c.one he))

theorem conditionOpt (h : ∀ t ∈ tests, t.Lawful J W w) : W J.value (conditionOpt tests) := by
  cases tests with
  | none => exact c.pure (c.literal (.bool true))
  | some t => exact c.condition (h t rfl)

theorem returned {arg : Option (Emit Lua.Expr)} (h : ∀ a ∈ arg, W J.value a) :
    W J.block (returned arg) := by
  cases arg with
  | none => exact c.pure (c.ret (c.ofOperand c.nil))
  | some a => exact c.last (h a rfl) fun _ => c.ret

theorem thrown (h : W J.value value) : W J.code (thrown value) := by
  refine c.last h fun _ he => c.act (c.call (c.ofPlace (c.fixed (by decide))) (c.one ?_))
  exact c.table (c.snoc (c.items c.none) (c.string "data") he)

theorem whileCode (hw : ∀ {e b}, J.value e → J.block b → J.code [.whileLoop e b])
    (ht : r.Lawful J W w) (hb : W J.code (loopBody labels body)) :
    W J.code (whileCode labels r body) :=
  c.bind (c.condition ht) fun _ hc => c.last hb fun _ hs => hw hc (c.ofCode hs)

theorem doWhileCode (hw : ∀ {b e}, J.block b → J.value e → J.code [.repeatUntil b e])
    (ht : r.Lawful J W w) (hb : W J.code (loopBody labels body)) :
    W J.code (doWhileCode labels body r) :=
  c.bind hb fun _ hs => c.last (c.condition ht) fun _ hc => hw (c.ofCode hs) (c.not hc)

theorem forCode (hw : ∀ {e b}, J.value e → J.block b → J.code [.whileLoop e b])
    (hi : W J.code init) (ht : ∀ t ∈ tests, t.Lawful J W w) (hu : W J.code update)
    (hb : W J.code (loopBody labels body)) :
    W J.code (forCode labels init tests update body) := by
  rw [forCode_eq]
  refine c.bind hi fun _ hs => c.bind (c.conditionOpt ht) fun _ hc => ?_
  refine c.bind hb fun _ hcode => c.last hu fun _ hstep => c.append hs ?_
  exact hw hc (c.ofCode (c.append hcode hstep))

theorem selection {selected : String} (hs : J.temporary selected) {arms : List Arm}
    (ha : J.arms arms) (default : Option Nat) : J.code (selection selected arms default) := by
  unfold Emission.selection
  dsimp only
  split
  · exact c.empty
  · exact c.assign (c.ofTemporary hs) (c.int _)
  · next hnone hsome =>
      refine c.select default ?_ ha hs
      rintro rfl
      cases default with
      | none => exact hnone rfl rfl
      | some n => exact hsome n rfl rfl

theorem defineOne {name : String} (hn : J.temporary name) {e : Lua.Expr} (he : J.value e) :
    J.code [.define [name] e] :=
  c.define (by simp) (by simpa using hn) he

theorem switchCode (hw : ∀ {b e}, J.block b → J.value e → J.code [.repeatUntil b e])
    (hd : r.Lawful J W w) {arms : (value selected : String) → Emit (List Arm)}
    (ha : ∀ v s, J.temporary v → J.temporary s → W J.arms (arms v s)) (default : Option Nat)
    {bodies : (selected : String) → Emit (List Stat)}
    (hb : ∀ s, J.temporary s → W (fun result => J.code result.1) (enclosed .switch (bodies s))) :
    W J.code (switchCode r arms default bodies) := by
  refine c.bind (c.fresh (by decide)) fun v hv => c.bind (c.fresh (by decide)) fun s hs => ?_
  refine c.bind hd.value fun _ he => c.bind (ha v s hv hs) fun _ ht => c.last (hb s hs) ?_
  intro result hcode
  have hlocals := c.append (c.defineOne hv he) (c.defineOne hs (c.int 0))
  have hfront := c.append hlocals (c.selection hs ht default)
  exact hw (c.ofCode (c.append hfront hcode)) (c.literal (.bool true))

theorem caseBody {selected : String} (hs : J.temporary selected) (n : Nat) {b : List Stat}
    (h : J.block b) : J.code [caseBody selected n b] :=
  c.ifThen (c.binop _ (c.binop _ (c.name hs) (c.int 0)) (c.binop _ (c.name hs) (c.int n))) h

/-- What follows when the body returned a value, and when it failed. -/
theorem outcomes {names : TryNames} (hn : names.Lawful J) {finish failed : List Stat}
    (hfinish : J.code finish) (hfailed : J.block failed) : J.code [.marker "EarlyReturn",
      .ifThen (.binop .and (.name names.status) (.binop .ne .nil (.name names.value)))
        (finish ++ [.ret (.name names.value)]) .none,
      .marker "CheckCatch", .ifThen (.unop .not (.name names.status)) failed .none] := by
  have hstatus := c.name hn.status
  have hvalue := c.name hn.value
  have hreturned := c.binop .and hstatus (c.binop .ne (c.ofOperand c.nil) hvalue)
  have hreturn := c.ifThen hreturned (c.before hfinish (c.ret hvalue))
  have hcheck := c.ifThen (c.not hstatus) hfailed
  exact c.append (c.append (c.append (c.marker (by decide)) hreturn) (c.marker (by decide))) hcheck

theorem tryPhases {names : TryNames} (hn : names.Lawful J) {tried : List Stat}
    (hb : J.body tried) {finalizer : Option (List Stat)} (hf : ∀ f ∈ finalizer, J.body f)
    {handler : Option (List String × List Stat)}
    (hh : ∀ h ∈ handler, (∀ p ∈ h.1, J.parameter p) ∧ J.body h.2) :
    J.code (tryPhases names tried finalizer handler) := by
  have hvalue := c.name hn.value
  have hcall : J.code [.call (.call (.name names.finalizer) [])] :=
    c.act (c.call (c.ofPlace (c.ofTemporary hn.finalizer)) c.none)
  have hraise : J.code [.call (.call (.name "error") [.name names.value, .int 0])] :=
    c.act (c.call (c.ofPlace (c.fixed (by decide))) (c.two hvalue (c.int 0)))
  have hdata := c.ofOperand (c.ofPlace (c.field "data" (c.ofPlace (c.ofTemporary hn.value))))
  have hcaught := c.defineOne hn.catchValue (c.ofCall (c.call
    (c.ofPlace (c.ofTemporary hn.handler)) (c.one (c.binop .or hdata hvalue))))
  have hclosure {text name : String} {params : List String} {code : List Stat}
      (ht : text ∈ fixedNotes) (hname : J.temporary name) (hp : ∀ p ∈ params, J.parameter p)
      (hcode : J.body code) :
      J.code [.marker text, .define [name] (.paren (.func params false code))] :=
    c.append (c.marker ht) (c.defineOne hname (c.closure hp hcode))
  have hfinish : J.code (finishCalls names finalizer) := by
    cases finalizer with
    | none => exact c.empty
    | some code => exact hcall
  unfold Emission.tryPhases
  refine c.append (c.append (c.append (c.append ?_ ?_) ?_) (c.outcomes hn ?_ ?_)) ?_
  · refine c.append (c.marker (by decide)) (c.define (by simp) ?_ (c.guarded hb))
    simpa using ⟨hn.status, hn.value⟩
  · cases finalizer with
    | none => exact c.empty
    | some code => exact hclosure (by decide) hn.finalizer nofun (hf code rfl)
  · cases handler with
    | none => exact c.empty
    | some h => exact hclosure (by decide) hn.handler (hh h rfl).1 (hh h rfl).2
  · exact hfinish
  · cases handler with
    | none => exact c.ofCode (c.append hfinish hraise)
    | some h => exact c.before (c.append hcaught hfinish) (c.ret (c.name hn.catchValue))
  · cases finalizer with
    | none => exact c.empty
    | some code => exact c.append (c.marker (by decide)) hcall

theorem clauseNotes (clauses : Nat) (span : Span) : W J.code (clauseNotes clauses span) := by
  unfold Emission.clauseNotes
  split
  · exact c.pure c.empty
  · exact c.last (c.report _) fun _ _ => c.note (by decide)

theorem optional {α : Type} {P : α → Prop} {act : Option (Emit α)} (h : ∀ a ∈ act, W P a) :
    W (fun result => ∀ a ∈ result, P a) (optional act) := by
  cases act with
  | none => exact c.pure nofun
  | some act =>
    refine c.last (h act rfl) fun a ha => ?_
    rintro _ ⟨⟩
    exact ha

theorem tryCode (span : Span) (hb : W J.body (walled body)) (clauses : Nat)
    {handler : Option (Emit (List String × List Stat))}
    (hh : ∀ h ∈ handler,
      W (fun result => (∀ p ∈ result.1, J.parameter p) ∧ J.body result.2) h)
    {finalizer : Option (Emit (List Stat))} (hf : ∀ f ∈ finalizer, W J.body (walled f)) :
    W J.code (tryCode span body clauses handler finalizer) := by
  have hfinal : ∀ f ∈ finalizer.map walled, W J.body f := by
    intro act hact
    obtain ⟨f, hm, rfl⟩ := Option.map_eq_some_iff.mp hact
    exact hf f hm
  rw [tryCode_eq]
  refine c.bind (c.fresh (by decide)) fun _ h₁ => c.bind (c.fresh (by decide)) fun _ h₂ => ?_
  refine c.bind (c.fresh (by decide)) fun _ h₃ => c.bind (c.fresh (by decide)) fun _ h₄ => ?_
  refine c.bind (c.fresh (by decide)) fun _ h₅ => ?_
  refine c.bind (c.clauseNotes clauses span) fun _ hnotes => c.bind hb fun _ ht => ?_
  refine c.bind (c.optional hfinal) fun _ hfin => c.last (c.optional hh) fun _ hc => ?_
  exact c.append hnotes (c.doBlock (c.ofCode (c.tryPhases ⟨h₁, h₂, h₃, h₄, h₅⟩ ht hfin hc)))

theorem handlerCode {param : Option String} (hp : ∀ p ∈ param, J.parameter (Lua.spell p))
    (hb : W J.body (walled body)) :
    W (fun result => (∀ p ∈ result.1, J.parameter p) ∧ J.body result.2)
      (handlerCode param body) := by
  refine c.last (c.inFrame _ (c.bind (c.declareNew _) fun _ _ => hb)) fun _ hc => ⟨?_, hc⟩
  intro p hm
  obtain ⟨q, hq, rfl⟩ := List.mem_map.mp hm
  exact hp q (Option.mem_toList.mp hq)

theorem functionValue {name : Option String} (hn : ∀ n ∈ name, J.parameter (Lua.spell n))
    (references : List String) (h : W J.action literal) :
    W J.action (functionValue name references literal) := by
  cases name with
  | none => exact h
  | some name =>
    rw [Emission.functionValue]
    split
    · refine c.last (c.inFrame _ (c.bind (c.declareNew _) fun _ _ => h)) fun _ => ?_
      exact c.named (hn name rfl)
    · exact h

theorem functionDeclaration {name : Option String}
    (hn : ∀ n ∈ name, W J.code (declareLocals [n]) ∧ J.place (.name (Lua.spell n)))
    (h : W J.action literal) : W J.code (functionDeclaration name literal) := by
  cases name with
  | none => exact c.last (c.report _) fun _ _ => c.empty
  | some name =>
    obtain ⟨hlocals, hname⟩ := hn name rfl
    refine c.bind hlocals fun _ hl => c.bind (c.bareName hname) fun _ ht => ?_
    exact c.last h fun _ hf => c.append hl (c.assign ht (c.ofCall hf))

theorem initCode {name : String} (hn : J.place (.name (Lua.spell name)))
    (h : ∀ a ∈ Expr.emitOpt e, a.Lawful J W w) : W J.code (initCode name e) := by
  unfold Emission.initCode
  split
  · exact c.pure c.empty
  · next a ha =>
      exact c.bind (c.bareName hn) fun _ ht => c.last (h a ha).value fun _ => c.assign ht

theorem itemCode (h : ∀ a ∈ Expr.emitOpt e, a.Lawful J W w) : W J.value (itemCode e) := by
  unfold Emission.itemCode
  split
  · exact c.pure (c.ofOperand c.nil)
  · next a ha => exact (h a ha).value

theorem armCode (n : Nat) {v s : String} (hv : J.temporary v) (hs : J.temporary s)
    (h : ∀ a ∈ Expr.emitOpt e, a.Lawful J W w) : W J.arms (armCode n e v s) := by
  unfold Emission.armCode
  split
  · exact c.pure c.noArms
  · next a ha =>
      refine c.last (h a ha).value fun _ ht => c.arm n (c.ofCall (c.helper .rawEqual ?_)) hs
      exact c.two (c.name hv) ht

theorem updateCode (h : ∀ a ∈ Expr.emitOpt e, a.Lawful J W w) :
    W J.code (((Expr.emitOpt e).map Rendition.effect).getD (Pure.pure [])) := by
  cases ha : Expr.emitOpt e with
  | none => exact c.pure c.empty
  | some a => exact (h a ha).effect

end Judgement.Lawful

/-- What a judgement of the code of an expression asks of the expression itself. -/
def Judgement.Ready (J : Judgement) (W : {α : Type} → (α → Prop) → Emit α → Prop) :
    Fragment → Prop
  | .expr (.ident name) => J.place (.name (Lua.spell name)) ∧ J.operand (.read (Lua.spell name))
  | .expr (.func f) => (∀ name ∈ f.name, J.parameter (Lua.spell name)) ∧ W J.action f.emit
  | .expr (.update _ _ e) | .expr (.assign _ e _) => J.lax ∨ e.isTarget = true
  | .expr (.unsupported node) => J.value (.noted .nil node.kind) ∧ J.code [.note node.kind]
  | _ => True

/-- The judgement holds of the code of an expression, or of those in a property. -/
def Judgement.Holds (J : Judgement) (W : {α : Type} → (α → Prop) → Emit α → Prop) :
    Fragment → Prop
  | .expr e => e.emit.Lawful J W e.isTarget
  | .prop (.named _ value) => value.emit.Lawful J W value.isTarget
  | .prop (.computed key value) =>
    key.emit.Lawful J W key.isTarget ∧ value.emit.Lawful J W value.isTarget
  | _ => True

namespace Judgement.Lawful

variable {J : Judgement} {W : {α : Type} → (α → Prop) → Emit α → Prop} (c : J.Lawful W)

include c

theorem values {es : List Expr} (h : ∀ e ∈ es, e.emit.Lawful J W false) :
    W J.args (Expr.emitValues es) := by
  induction es with
  | nil => exact c.pure c.none
  | cons e rest ih =>
    obtain ⟨he, hrest⟩ := List.forall_mem_cons.mp h
    exact c.bind he.value fun _ hv => c.last (ih hrest) fun _ => c.cons hv

theorem effects {es : List Expr} (h : ∀ e ∈ es, e.emit.Lawful J W false) :
    W J.code (Expr.emitEffects es) := by
  induction es with
  | nil => exact c.pure c.empty
  | cons e rest ih =>
    obtain ⟨he, hrest⟩ := List.forall_mem_cons.mp h
    exact c.bind he.effect fun _ hc => c.last (ih hrest) fun _ => c.append hc

theorem elements (index : Nat) {es : List (Option Expr)}
    (h : ∀ item ∈ es, ∀ r ∈ Expr.emitOpt item, r.Lawful J W false) :
    W J.fields (Expr.emitItems index es) := by
  induction es generalizing index with
  | nil => exact c.pure (c.items c.none)
  | cons item rest ih =>
    obtain ⟨hitem, hrest⟩ := List.forall_mem_cons.mp h
    rw [Expr.emitItems_cons]
    exact c.bind (c.itemCode hitem) fun _ hv =>
      c.last (ih (index + 1) hrest) fun _ => c.keyed (c.int index) hv

theorem properties {props : List Property} (h : ∀ p ∈ props, J.Holds W (.prop p)) :
    W J.fields (Property.emit props) := by
  induction props with
  | nil => exact c.pure (c.items c.none)
  | cons p rest ih =>
    obtain ⟨hp, hrest⟩ := List.forall_mem_cons.mp h
    cases p with
    | named key value =>
      exact c.bind hp.value fun _ hv => c.last (ih hrest) fun _ => c.keyed (c.propName key) hv
    | computed key value =>
      exact c.bind hp.1.value fun _ hk => c.bind hp.2.value fun _ hv =>
        c.last (ih hrest) fun _ => c.keyed hk hv

/-- A lawful judgement holds of an expression that is ready for it, once it holds of the parts. -/
theorem step {p : Fragment} (hparts : ∀ q ∈ p.parts, J.Holds W q) (hown : J.Ready W p) :
    J.Holds W p := by
  cases p with
  | expr e =>
    have hexpr {e' : Expr} (he : .expr e' ∈ (Fragment.expr e).parts) :
        e'.emit.Lawful J W e'.isTarget := hparts (.expr e') he
    have hargs {callee : Expr} {args : List Expr} :
        (∀ q ∈ Fragment.expr callee :: args.map .expr, J.Holds W q) →
          W J.args (Expr.emitValues args) :=
      fun h => c.values fun e he =>
        Rendition.Lawful.forget (h (.expr e) (.tail _ (List.mem_map_of_mem he)))
    cases e with
    | ident name => exact c.ident hown.1 hown.2
    | this => exact c.this
    | lit value => exact c.lit value
    | array items =>
      refine c.array _ (c.elements 0 fun item hitem r hr => ?_)
      cases item with
      | none => cases hr
      | some e =>
        cases hr
        exact (hexpr (List.mem_flatMap.mpr ⟨some e, hitem, .head _⟩)).forget
    | object props =>
      exact c.object (c.properties fun p hp => hparts _ (List.mem_map_of_mem hp))
    | func f =>
      obtain ⟨name, params, body⟩ := f
      exact c.function (c.functionValue hown.1 _ hown.2)
    | unary op e => exact c.unary op (hexpr (.head _))
    | update op leading e => exact c.update op leading (hexpr (.head _)) hown
    | binary op a b => exact c.binary op (hexpr (.head _)) (hexpr (.tail _ (.head _)))
    | logical op a b => exact c.logical op (hexpr (.head _)) (hexpr (.tail _ (.head _)))
    | assign op a b => exact c.assignment op (hexpr (.head _)) hown (hexpr (.tail _ (.head _)))
    | cond test cons alt =>
      exact c.conditional (hexpr (.head _)) (hexpr (.tail _ (.head _)))
        (hexpr (.tail _ (.tail _ (.head _))))
    | call callee args => exact c.invocation (hexpr (.head _)) (hargs hparts)
    | new callee args => exact c.new (hexpr (.head _)) (hargs hparts)
    | member object name => exact c.member (hexpr (.head _)) name
    | index object key => exact c.element (hexpr (.head _)) (hexpr (.tail _ (.head _)))
    | seq items =>
      have hitems : ∀ e ∈ items, _ := fun e he => (hexpr (List.mem_map_of_mem he)).forget
      exact c.sequence (c.values hitems) (c.effects hitems)
    | unsupported node => exact c.unsupported hown.1 hown.2
  | prop p => cases p <;> simpa [Fragment.parts, Holds] using hparts
  | _ => trivial

theorem holds {K : Fragment → Prop} (hK : ∀ p, K p → ∀ q ∈ p.parts, K q)
    (hready : ∀ p, K p → J.Ready W p) (p : Fragment) (h : K p) : J.Holds W p := by
  induction p using Fragment.induct with
  | h p ih => exact c.step (fun q hq => ih q hq (hK p h q hq)) (hready p h)

/-- An expression under rules, if each fragment of it that is under them is ready. -/
theorem expr {r : Rules} {e : Expr} (h : e.Obeys r)
    (hready : ∀ p, p.Obeys r → sizeOf p ≤ sizeOf (Fragment.expr e) → J.Ready W p) :
    e.emit.Lawful J W e.isTarget := by
  refine c.holds (K := fun p => p.Obeys r ∧ sizeOf p ≤ sizeOf (Fragment.expr e))
    (fun p hp q hq => ?_) (fun p hp => hready p hp.1 hp.2) (.expr e) ⟨h, le_rfl⟩
  exact ⟨(p.obeys_iff.mp hp.1).2 q hq, (Fragment.sizeOf_lt hq).le.trans hp.2⟩

end Judgement.Lawful

end EcmaLua.Emission
