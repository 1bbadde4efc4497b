import EcmaLua.Proofs.Emission.Actions
import EcmaLua.Proofs.Program.Finds
import EcmaLua.Proofs.Program.Nodes

/-!
# Properties of all that emission does

A property of actions is graded by what the action finds in the program. It is closed when the
primitive actions have it, with reports only of what is allowed, and when it passes to what is put
together from actions that have it, with their finds together. Emission is put together from the
primitive actions: a closed property holds of the code of every part of a program that admits the
allowed findings, with the finds of that part. What a finished emission has reported is one use of
it, and a use that forgets the grade.
-/

namespace EcmaLua

open Emission
open Lua (Stat)

namespace Emission

/-- The names and the place of a hint on a `with` statement. -/
def hint? : Finding → Option (List String × Span)
  | .withScope names span => some (names, span)
  | _ => none

/-- A property of actions that sequences and scopes of actions take over from their parts. It has
a narrow and a wide form. The wide one leaves it open whether names get locals, so that only a
lexical frame leads back from it to the narrow one. -/
structure Closed (allowed : Finding → Prop)
    (R : Bool → List Find → (α : Type) → Emit α → Prop) : Prop where
  widen : ∀ {L α x}, R false L α x → R true L α x
  /-- The order and the number of the finds do not count, nor do those that are not sure. -/
  alike : ∀ {w L M α x}, (∀ z, z.isSure = true → (z ∈ L ↔ z ∈ M)) → R w L α x → R w M α x
  pure : ∀ {w α} (a : α), R w [] α (Pure.pure a)
  bind : ∀ {w L M α β} {x : Emit α} {f : α → Emit β},
    R w L α x → (∀ a, R w M β (f a)) → R w (L ++ M) β (x >>= f)
  fresh : ∀ {w} stem, R w [] String (fresh stem)
  report : ∀ {w finding}, allowed finding → hint? finding = none → R w [] Unit (report finding)
  lookup : ∀ {w} name, R w [.name name true] Resolution (lookup name)
  declareNew : ∀ names, R true [] (List String) (declareNew names)
  breakJump : ∀ {w} label, R w [] Jump (breakJump label)
  continueJump : ∀ {w} label, R w [] Jump (continueJump label)
  lexical : ∀ {w L α x} {frame : Frame}, frame.kind = .lexical → R true L α x →
    R w (L.filter (Find.passes frame)) α (inFrame frame x)
  within : ∀ {body : Stmt} {span α β} {x : Emit α} (proxy : String) (g : α → β),
    (∀ names, allowed (.withScope names span)) → R true body.finds α x →
    R true (body.finds.map Find.outward ++ [.scope body span]) β (do
      let result ← inFrame (.object "with" proxy) (capturing x)
      Emission.report (.withScope result.2 span)
      Pure.pure (g result.1))
  enclosed : ∀ {w L α x} enclosure, R w L α x → R w L (α × Enclosure) (enclosed enclosure x)
  detached : ∀ {w L α x}, R w L α x → R w L α (detached x)

/-- The narrow form holds of every use of an expression but its deletion, with its finds. -/
structure Rendition.Has (R : Bool → List Find → (α : Type) → Emit α → Prop) (L : List Find)
    (r : Rendition) : Prop where
  value : R false L _ r.value
  unguarded : R false L _ r.unguarded
  target : R false L _ r.target
  effect : R false L _ r.effect
  base : R false L _ r.base
  invoke : ∀ {M args}, R false M _ args → R false (L ++ M) _ (r.invoke args)

namespace Closed

variable {allowed : Finding → Prop} {R : Bool → List Find → (α : Type) → Emit α → Prop}
  (c : Closed allowed R) {w : Bool} {L M N : List Find}

include c

section Actions

variable {α β : Type} {x : Emit α}

/-- A step that finds nothing. -/
theorem first {f : α → Emit β} (hx : R w [] _ x) (hf : ∀ a, R w L _ (f a)) : R w L _ (x >>= f) :=
  c.bind hx hf

theorem last {g : α → β} (hx : R w L _ x) : R w L _ (x >>= fun a => Pure.pure (g a)) := by
  have h := c.bind hx fun a => c.pure (g a)
  rwa [List.append_nil] at h

/-- Finds that come twice count once. -/
theorem same (h : R w L _ x) (hLM : ∀ z, z ∈ L ↔ z ∈ M) : R w M _ x :=
  c.alike (fun z _ => hLM z) h

theorem unsure {name : String} (h : R w [] _ x) : R w [.name name false] _ x := by
  refine c.alike (fun z hz => ?_) h
  have hne : z ≠ .name name false := by
    rintro rfl
    cases hz
  simp [hne]

theorem walled (hx : R w L _ x) : R w L _ (walled x) := c.last (c.enclosed .barrier hx)

theorem labeled (hx : R w L _ x) (labels : List String) : R w L _ (labeled labels x) := by
  induction labels with
  | nil => exact hx
  | cons label rest ih => exact c.last (c.enclosed (.labeled label) ih)

theorem declareLocals (names : List String) : R true [] _ (declareLocals names) :=
  c.last (c.declareNew names)

theorem optional {act : Option (Emit α)} (h : act.elim (L = []) (R w L _)) :
    R w L _ (optional act) := by
  cases act with
  | none =>
    obtain rfl : L = [] := h
    exact c.pure _
  | some a => exact c.last h

theorem jumpCode {blocked missing : Finding} (note : String)
    (hb : R w [] _ (Emission.report blocked)) (hm : R w [] _ (Emission.report missing))
    (jump : Jump) : R w [] _ (jumpCode note blocked missing jump) := by
  cases jump with
  | leave => exact c.pure _
  | goTo name => exact c.pure _
  | blocked => exact c.last hb
  | missing => exact c.last hm

theorem breakCode (label : Option String) {span : Span} (hb : allowed (.blockedBreak span))
    (hs : allowed (.strayBreak span)) : R w [] _ (breakCode label span) := by
  have heq : Emission.breakCode label span =
      Emission.breakJump label >>=
        Emission.jumpCode "BreakStatement" (.blockedBreak span) (.strayBreak span) := by
    funext s
    exact breakCode_eq label span s
  rw [heq]
  exact c.first (c.breakJump label) (c.jumpCode _ (c.report hb rfl) (c.report hs rfl))

theorem continueCode (label : Option String) {span : Span}
    (hb : allowed (.blockedContinue span)) (hs : allowed (.strayContinue span)) :
    R w [] _ (continueCode label span) := by
  have heq : Emission.continueCode label span =
      Emission.continueJump label >>=
        Emission.jumpCode "ContinueStatement" (.blockedContinue span) (.strayContinue span) := by
    funext s
    exact continueCode_eq label span s
  rw [heq]
  exact c.first (c.continueJump label) (c.jumpCode _ (c.report hb rfl) (c.report hs rfl))

end Actions

section Renditions

variable {value : Emit Lua.Expr} {args : Emit (List Lua.Expr)} {l r test cons alt : Rendition}

theorem ofValue (h : R false L _ value) : (Rendition.ofValue value).Has R L where
  value := h
  unguarded := h
  target := h
  effect := c.last h
  base := h
  invoke := fun ha => c.bind h fun _ => c.last ha

theorem bareName (name : String) : R w [.name name true] _ (Rendition.bareName name) :=
  c.last (c.lookup name)

theorem ident (name : String) : (Rendition.ident name).Has R [.name name true] := by
  have hread : R false [.name name true] _ (Rendition.readName name) := c.last (c.lookup name)
  exact { c.ofValue hread with unguarded := c.bareName name, target := c.bareName name }

theorem literal (value : Literal) : (Rendition.literal value).Has R [] :=
  { c.ofValue (c.pure _) with base := c.pure _, invoke := fun ha => c.last ha }

theorem function (h : R false L _ value) : (Rendition.function value).Has R L :=
  { c.ofValue h with invoke := fun ha => c.bind h fun _ => c.last ha }

theorem binary (op : BinaryOp) (hl : l.Has R L) (hr : r.Has R M) :
    (l.binary op r).Has R (L ++ M) :=
  c.ofValue (c.bind hl.value fun _ => c.last hr.value)

theorem logical (op : LogicalOp) (hl : l.Has R L) (hr : r.Has R M) :
    (l.logical op r).Has R (L ++ M) :=
  c.ofValue (c.bind hl.value fun _ => c.last hr.value)

theorem unary (op : UnaryOp) (h : r.Has R L) (hd : R false M _ r.delete) :
    (r.unary op).Has R (op.finds L M) := by
  refine c.ofValue ?_
  cases op with
  | minus | plus | not | bitNot => exact c.last h.value
  | typeof => exact c.last h.unguarded
  | void => exact c.pure _
  | delete => exact hd

theorem conditional (ht : test.Has R L) (hc : cons.Has R M) (ha : alt.Has R N) :
    (test.conditional cons alt).Has R (L ++ (M ++ N)) :=
  c.ofValue (c.bind ht.value fun _ => c.bind hc.value fun _ => c.last ha.value)

theorem update (op : UpdateOp) (leading : Bool) (h : r.Has R L) :
    (r.update op leading).Has R L := by
  have hvalue : R false L _ (r.update op leading).value := by
    refine c.same (L := L ++ (L ++ [])) (c.bind h.target fun _ => c.bind h.value fun _ => ?_)
      (by simp)
    split
    · exact c.pure _
    · exact c.last (c.fresh _)
  exact
    { c.ofValue hvalue with
      effect := c.same (c.bind h.target fun _ => c.last h.value) (by simp) }

theorem assign (op : Option BinaryOp) (hl : l.Has R L) (hr : r.Has R M) :
    (l.assign op r).Has R (L ++ M) := by
  have hnew : R false (if op.isSome then L ++ M else M) _ (l.assigned op r) := by
    cases op with
    | none => exact hr.value
    | some op => exact c.bind hl.value fun _ => c.last hr.value
  have hvalue : R false (L ++ M) _ (l.assign op r).value :=
    c.same (c.bind hl.target fun _ => c.bind hnew fun _ => c.last hl.value) (by grind)
  exact
    { c.ofValue hvalue with
      effect := c.same (c.bind hl.target fun _ => c.last hnew) (by grind) }

theorem call (hf : r.Has R L) (ha : R false M _ args) : (r.call args).Has R (L ++ M) :=
  { c.ofValue (hf.invoke ha) with effect := c.last (hf.invoke ha) }

theorem new (hf : r.Has R L) (ha : R false M _ args) : (r.new args).Has R (L ++ M) :=
  c.ofValue (c.bind hf.value fun _ => c.last ha)

theorem method {object key : Emit Lua.Expr} (ho : R false L _ object) (hk : R false M _ key)
    (ha : R false N _ args) : R false (L ++ (M ++ N)) _ (Rendition.method object key args) :=
  c.bind ho fun _ => c.bind hk fun _ => c.last ha

theorem member (h : r.Has R L) (name : String) : (r.member name).Has R L := by
  have hplace : R false L _ (r.member name).target := c.last h.base
  have hvalue : R false L _ (r.member name).value := by
    unfold Rendition.member
    simp only [Rendition.ofValue]
    split
    · exact c.last h.value
    · exact hplace
  exact
    { c.ofValue hvalue with
      target := hplace
      invoke := fun ha => c.method h.value (c.pure _) ha }

theorem index (ho : l.Has R L) (hk : r.Has R M) : (l.index r).Has R (L ++ M) := by
  have hposition : R false M _ (do Pure.pure (l.key (← r.value)) : Emit Lua.Expr) :=
    c.last hk.value
  have hvalue : R false (L ++ M) _ (l.index r).value :=
    c.bind ho.base fun _ => c.last hposition
  exact
    { c.ofValue hvalue with
      invoke := fun ha => c.same (c.method ho.value hposition ha) (by simp) }

theorem sequence {effects : Emit (List Stat)} (ha : R false L _ args)
    (he : R false L _ effects) : (Rendition.sequence args effects).Has R L :=
  { c.ofValue (c.last ha) with effect := he }

theorem unsupported {node : Unsupported} (h : allowed (.unsupported node)) :
    (Rendition.unsupported node).Has R [] :=
  { c.ofValue (c.last (c.report h rfl)) with effect := c.last (c.report h rfl) }

end Renditions

section Constructs

variable {r : Rendition} {tests : Option Rendition} {literal : Emit Lua.Expr}
  {act body init update : Emit (List Stat)} {labels : List String}

theorem condition (h : r.Has R L) : R true L _ (condition r) := c.last (c.widen h.value)

theorem conditionOpt (h : tests.elim (L = []) (Rendition.Has R L)) :
    R true L _ (conditionOpt tests) := by
  cases tests with
  | none =>
    obtain rfl : L = [] := h
    exact c.pure _
  | some t => exact c.condition h

theorem labeledCode (h : R true L _ act) : R true L _ (labeledCode labels act) :=
  c.last (c.labeled h labels)

theorem loopBody (h : R true L _ body) : R true L _ (loopBody labels body) :=
  c.last (c.enclosed _ h)

theorem whileCode (ht : r.Has R L) (hb : R true M _ body) :
    R true (L ++ M) _ (whileCode labels r body) :=
  c.bind (c.condition ht) fun _ => c.last (c.loopBody hb)

theorem doWhileCode (hb : R true L _ body) (ht : r.Has R M) :
    R true (L ++ M) _ (doWhileCode labels body r) :=
  c.bind (c.loopBody hb) fun _ => c.last (c.condition ht)

theorem forCode {K : List Find} (hi : R true L _ init)
    (ht : tests.elim (M = []) (Rendition.Has R M)) (hb : R true N _ body)
    (hu : R true K _ update) :
    R true (L ++ (M ++ (N ++ K))) _ (forCode labels init tests update body) := by
  rw [forCode_eq]
  refine c.bind hi fun _ => c.bind (c.conditionOpt ht) fun _ => ?_
  exact c.bind (c.loopBody hb) fun _ => c.last hu

theorem forInCode (ho : r.Has R L) {head : Emit (String × List Stat)}
    (hh : R true M _ head) (hb : R true N _ body) :
    R true (L ++ (M ++ N)) _ (forInCode labels r head body) := by
  refine c.bind (c.widen ho.value) fun _ => c.first (c.fresh _) fun _ => ?_
  exact c.bind hh fun _ => c.last (c.loopBody hb)

theorem switchCode (hd : r.Has R L) {arms : String → String → Emit (List Lua.Arm)}
    (ha : ∀ v s, R true M _ (arms v s)) (default : Option Nat)
    {bodies : String → Emit (List Stat)} (hb : ∀ s, R true N _ (bodies s)) :
    R true (L ++ (M ++ N)) _ (switchCode r arms default bodies) := by
  refine c.first (c.fresh _) fun v => c.first (c.fresh _) fun s => ?_
  refine c.bind (c.widen hd.value) fun _ => c.bind (ha v s) fun _ => ?_
  exact c.last (c.enclosed .switch (hb s))

theorem handlerCode (param : Option String) (hb : R true L _ body) :
    R true (L.filter (Find.passes (.lexical "catch" [] [] param.toList))) _
      (handlerCode param body) :=
  c.last (c.lexical rfl (c.first (c.declareNew _) fun _ => c.walled hb))

theorem clauseNotes {clauses : Nat} {span : Span}
    (h : 1 < clauses → allowed (.manyCatches clauses span)) :
    R true [] _ (clauseNotes clauses span) := by
  unfold Emission.clauseNotes
  split
  · exact c.pure _
  · next hmany => exact c.last (c.report (h (by omega)) rfl)

theorem tryCode {clauses : Nat} {span : Span}
    (hc : 1 < clauses → allowed (.manyCatches clauses span)) (hb : R true L _ body)
    {finalizer : Option (Emit (List Stat))} (hf : finalizer.elim (M = []) (R true M _))
    {handler : Option (Emit (List String × List Stat))}
    (hh : handler.elim (N = []) (R true N _)) :
    R true (L ++ (M ++ N)) _ (tryCode span body clauses handler finalizer) := by
  have hfinal : (finalizer.map Emission.walled).elim (M = []) (R true M _) := by
    cases finalizer with
    | none => exact hf
    | some act => exact c.walled hf
  rw [tryCode_eq]
  refine c.first (c.fresh _) fun _ => c.first (c.fresh _) fun _ => c.first (c.fresh _) fun _ => ?_
  refine c.first (c.fresh _) fun _ => c.first (c.fresh _) fun _ => ?_
  refine c.first (c.clauseNotes hc) fun _ => c.bind (c.walled hb) fun _ => ?_
  exact c.bind (c.optional hfinal) fun _ => c.last (c.optional hh)

theorem withCode {s : Stmt} {span : Span} (hs : ∀ names, allowed (.withScope names span))
    (ho : r.Has R L) (hb : R true s.finds _ body) :
    R true (L ++ (s.finds.map Find.outward ++ [.scope s span])) _ (withCode span r body) := by
  refine c.first (c.fresh _) fun proxy => c.bind (c.widen ho.value) fun o => ?_
  exact c.within proxy (fun code => [Stat.scoped proxy (Lua.Helper.toObject.call [o]) code])
    hs hb

theorem functionCode (params : List String) (names : Declarations) (hb : R true L _ body) :
    R w (L.filter (Find.passes (functionFrame params names))) _
      (functionCode params names body) := by
  refine c.last (c.detached (c.lexical rfl ?_))
  exact c.first (c.declareNew _) fun _ => c.first (c.declareLocals _) fun _ => c.last hb

theorem functionValue (name : Option String) (references : List String)
    (hl : R false L _ literal) :
    R false (selfFinds name references L) _ (functionValue name references literal) := by
  cases name with
  | none => exact hl
  | some name =>
    rw [Emission.functionValue, selfFinds]
    split
    · exact c.last (c.lexical rfl (c.first (c.declareNew _) fun _ => c.widen hl))
    · exact hl

end Constructs

section Parts

variable {e : Option Expr} (h : (Expr.emitOpt e).elim (L = []) (Rendition.Has R L))

include h

theorem itemCode : R false L _ (itemCode e) := by
  unfold Emission.itemCode
  cases hr : Expr.emitOpt e <;> rw [hr] at h
  · obtain rfl : L = [] := h
    exact c.pure _
  · exact h.value

theorem armCode (n : Nat) (value selected : String) :
    R true L _ (armCode n e value selected) := by
  unfold Emission.armCode
  cases hr : Expr.emitOpt e <;> rw [hr] at h
  · obtain rfl : L = [] := h
    exact c.pure _
  · exact c.last (c.widen h.value)

theorem updateCode :
    R true L _ (((Expr.emitOpt e).map Rendition.effect).getD (Pure.pure [])) := by
  cases hr : Expr.emitOpt e <;> rw [hr] at h
  · obtain rfl : L = [] := h
    exact c.pure _
  · exact c.widen h.effect

end Parts

end Closed

end Emission

theorem Emission.kind_rootFrame (names : Declarations) : (rootFrame names).kind = .lexical := by
  unfold rootFrame
  simp only
  split <;> rfl

section Walk

variable {allowed : Finding → Prop} {R : Bool → List Find → (α : Type) → Emit α → Prop}

mutual

/-- A closed property holds of every use of an expression, with the finds of the expression. -/
theorem Expr.has_emit (c : Closed allowed R) :
    (e : Expr) → Admitted allowed e.nodes → e.emit.Has R e.finds
  | .ident name, _ => c.ident name
  | .this, _ => { c.ofValue (c.pure _) with }
  | .lit value, _ => c.literal value
  | .array items, h => c.ofValue (c.last (Expr.has_emitItems c 0 items h))
  | .object props, h => c.ofValue (c.last (Property.has_emit c props h))
  | .func ⟨name, params, body⟩, h =>
    c.function (c.functionValue name _ (Func.has_emit c ⟨name, params, body⟩ h))
  | .unary op arg, h => c.unary op (Expr.has_emit c arg h) (Expr.has_delete c arg h)
  | .update op leading arg, h => c.update op leading (Expr.has_emit c arg h.tail)
  | .binary op left right, h =>
    c.binary op (Expr.has_emit c left h.left) (Expr.has_emit c right h.right)
  | .logical op left right, h =>
    c.logical op (Expr.has_emit c left h.left) (Expr.has_emit c right h.right)
  | .assign op target value, h =>
    c.assign op (Expr.has_emit c target h.tail.left) (Expr.has_emit c value h.tail.right)
  | .cond test cons alt, h =>
    c.conditional (Expr.has_emit c test h.left.left) (Expr.has_emit c cons h.left.right)
      (Expr.has_emit c alt h.right)
  | .call callee args, h =>
    c.call (Expr.has_emit c callee h.left) (Expr.has_emitValues c args h.right)
  | .new callee args, h =>
    c.new (Expr.has_emit c callee h.left) (Expr.has_emitValues c args h.right)
  | .member object name, h => c.member (Expr.has_emit c object h) name
  | .index object key, h => c.index (Expr.has_emit c object h.left) (Expr.has_emit c key h.right)
  | .seq items, h => c.sequence (Expr.has_emitValues c items h) (Expr.has_emitEffects c items h)
  | .unsupported _, h => c.unsupported h.head

theorem Expr.has_delete (c : Closed allowed R) :
    (e : Expr) → Admitted allowed e.nodes → R false e.findsDeleted _ e.emit.delete
  | .ident _, _ => c.unsure (c.pure _)
  | .member object _, h => c.last (Expr.has_emit c object h).value
  | .index object key, h =>
    c.bind (Expr.has_emit c object h.left).value fun _ => c.last (Expr.has_emit c key h.right).value
  | .this, _ | .lit _, _ | .array _, _ | .object _, _ | .func _, _ | .unary _ _, _
  | .update _ _ _, _ | .binary _ _ _, _ | .logical _ _ _, _ | .assign _ _ _, _ | .cond _ _ _, _
  | .call _ _, _ | .new _ _, _ | .seq _, _ | .unsupported _, _ => c.pure _

theorem Expr.has_emitValues (c : Closed allowed R) :
    (es : List Expr) → Admitted allowed (Expr.nodesList es) →
    R false (Expr.findsList es) _ (Expr.emitValues es)
  | [], _ => c.pure _
  | e :: rest, h =>
    c.bind (Expr.has_emit c e h.left).value fun _ => c.last (Expr.has_emitValues c rest h.right)

theorem Expr.has_emitEffects (c : Closed allowed R) :
    (es : List Expr) → Admitted allowed (Expr.nodesList es) →
    R false (Expr.findsList es) _ (Expr.emitEffects es)
  | [], _ => c.pure _
  | e :: rest, h =>
    c.bind (Expr.has_emit c e h.left).effect fun _ => c.last (Expr.has_emitEffects c rest h.right)

theorem Expr.has_emitOpt (c : Closed allowed R) :
    (e : Option Expr) → Admitted allowed (Expr.nodesOpt e) →
    (Expr.emitOpt e).elim (Expr.findsOpt e = []) (Rendition.Has R (Expr.findsOpt e))
  | none, _ => rfl
  | some e, h => Expr.has_emit c e h

theorem Expr.has_emitItems (c : Closed allowed R) (index : Nat) : (items : List (Option Expr)) →
    Admitted allowed (Expr.nodesItems items) →
    R false (Expr.findsItems items) _ (Expr.emitItems index items)
  | [], _ => c.pure _
  | item :: rest, h => by
    rw [Expr.emitItems_cons]
    exact c.bind (c.itemCode (Expr.has_emitOpt c item h.left)) fun _ =>
      c.last (Expr.has_emitItems c (index + 1) rest h.right)

theorem Property.has_emit (c : Closed allowed R) :
    (props : List Property) → Admitted allowed (Property.nodes props) →
    R false (Property.finds props) _ (Property.emit props)
  | [], _ => c.pure _
  | .named _ value :: rest, h =>
    c.bind (Expr.has_emit c value h.left).value fun _ => c.last (Property.has_emit c rest h.right)
  | .computed key value :: rest, h =>
    c.bind (Expr.has_emit c key h.left.left).value fun _ =>
      c.bind (Expr.has_emit c value h.left.right).value fun _ =>
        c.last (Property.has_emit c rest h.right)

theorem Func.has_emit (c : Closed allowed R) :
    (f : Func) → Admitted allowed f.nodes → R false f.finds _ f.emit
  | ⟨_, params, body⟩, h => c.functionCode params _ (Stmt.has_emitList c body h)

theorem Declarator.has_emit (c : Closed allowed R) :
    (decls : List Declarator) → Admitted allowed (Declarator.nodes decls) →
    R true (Declarator.finds decls) _ (Declarator.emit decls)
  | [], _ => c.pure _
  | ⟨_, none⟩ :: rest, h => c.first (c.pure _) fun _ => c.last (Declarator.has_emit c rest h)
  | ⟨name, some init⟩ :: rest, h => by
    refine c.same (c.bind (c.bind (c.bareName name) fun _ => c.last
      (c.widen (Expr.has_emit c init h.tail.left).value)) fun _ =>
      c.last (Declarator.has_emit c rest h.tail.right)) ?_
    simp [Declarator.finds]

theorem ForInit.has_emit (c : Closed allowed R) :
    (init : ForInit) → Admitted allowed init.nodes → R true init.finds _ init.emit
  | .none, _ => c.pure _
  | .vars _ decls, h => c.first (c.declareLocals _) fun _ => c.last (Declarator.has_emit c decls h)
  | .expr e, h => c.widen (Expr.has_emit c e h).effect

theorem ForInHead.has_emit (c : Closed allowed R) :
    (head : ForInHead) → Admitted allowed head.nodes →
    R true head.finds _ head.emit
  | .var _ _, _ => c.unsure (c.pure _)
  | .target e, h => by
    have htarget : R true e.finds _ e.emit.target := c.widen (Expr.has_emit c e h).target
    cases e
    case ident name => exact c.unsure (c.pure _)
    all_goals exact c.first (c.fresh _) fun _ => c.last htarget

/-- A closed property holds in its wide form of the code of a statement. -/
theorem Stmt.has_emit (c : Closed allowed R) (place : Place) :
    (s : Stmt) → Admitted allowed s.nodes →
    R true s.finds _ (s.emit place)
  | .empty, _ => c.labeledCode (c.pure _)
  | .exprStmt e, h => c.labeledCode (c.widen (Expr.has_emit c e h).effect)
  | .varStmt _ decls, h =>
    c.labeledCode (c.first (c.declareLocals _) fun _ => c.last (Declarator.has_emit c decls h))
  | .funcStmt ⟨none, _, _⟩, h => c.labeledCode (c.last (c.report (h.head rfl) rfl))
  | .funcStmt ⟨some name, params, body⟩, h =>
    c.labeledCode (c.first (c.declareLocals _) fun _ => c.bind (c.bareName name) fun _ =>
      c.last (c.functionCode params _ (Stmt.has_emitList c body h.tail)))
  | .returnStmt none, _ => c.last (c.labeled (c.pure _) _)
  | .returnStmt (some e), h =>
    c.last (c.labeled (c.last (c.widen (Expr.has_emit c e h).value)) _)
  | .throwStmt arg, h => c.labeledCode (c.last (c.widen (Expr.has_emit c arg h).value))
  | .breakStmt label _, h => c.labeledCode (c.breakCode label h.head.1 h.head.2)
  | .continueStmt label _, h => c.labeledCode (c.continueCode label h.head.1 h.head.2)
  | .ifStmt test cons alt, h =>
    c.labeledCode (c.bind (c.condition (Expr.has_emit c test h.left.left)) fun _ =>
      c.bind (Stmt.has_emit c .body cons h.left.right) fun _ =>
        c.last (Stmt.has_emitElse c alt h.right))
  | .whileStmt test body, h =>
    c.last (c.whileCode (Expr.has_emit c test h.left) (Stmt.has_emit c .body body h.right))
  | .doWhileStmt body test, h =>
    c.last (c.doWhileCode (Stmt.has_emit c .body body h.left) (Expr.has_emit c test h.right))
  | .forStmt init test update body, h =>
    c.last (c.forCode (ForInit.has_emit c init h.left.left.left)
      (Expr.has_emitOpt c test h.left.left.right) (Stmt.has_emit c .body body h.right)
      (c.updateCode (Expr.has_emitOpt c update h.left.right)))
  | .forInStmt head object body, h =>
    c.last (c.forInCode (Expr.has_emit c object h.tail.left.right)
      (ForInHead.has_emit c head h.tail.left.left) (Stmt.has_emit c .body body h.tail.right))
  | .switchStmt discriminant cases, h =>
    c.labeledCode (c.switchCode (Expr.has_emit c discriminant h.left)
      (SwitchCase.has_emitArms c 1 cases h.right) _ (SwitchCase.has_emitBodies c 1 cases h.right))
  | .tryStmt block handlers finalizer _, h =>
    c.labeledCode (c.tryCode h.head (Stmt.has_emitList c block h.tail.left.left)
      (Stmt.has_emitBlock c finalizer h.tail.right)
      (CatchClause.has_emitFirst c handlers h.tail.left.right))
  | .withStmt object body _, h =>
    c.labeledCode (c.withCode h.head (Expr.has_emit c object h.tail.left)
      (Stmt.has_emit c .body body h.tail.right))
  | .labeled label body, h => Stmt.has_emit c (.statement (place.labels ++ [label])) body h
  | .block body, h => by
    have hbody := Stmt.has_emitList c body h
    cases place with
    | body => exact hbody
    | statement labels => exact c.labeledCode (c.last hbody)
  | .unsupported _, h => c.labeledCode (c.last (c.report h.head rfl))

theorem Stmt.has_emitList (c : Closed allowed R) :
    (body : List Stmt) → Admitted allowed (Stmt.nodesList body) →
    R true (Stmt.findsList body) _ (Stmt.emitList body)
  | [], _ => c.pure _
  | s :: rest, h => by
    have hrest := Stmt.has_emitList c rest h.right
    refine c.bind (Stmt.has_emit c (.statement []) s h.left) fun _ => ?_
    cases s.endsBlock with
    | true => exact c.pure _
    | false => exact c.last hrest

theorem Stmt.has_emitBlock (c : Closed allowed R) :
    (body : Option (List Stmt)) → Admitted allowed (Stmt.nodesBlock body) →
    (Stmt.emitBlock body).elim (Stmt.findsBlock body = []) (R true (Stmt.findsBlock body) _)
  | none, _ => rfl
  | some body, h => Stmt.has_emitList c body h

theorem Stmt.has_emitElse (c : Closed allowed R) :
    (alt : Option Stmt) → Admitted allowed (Stmt.nodesOpt alt) →
    R true (Stmt.findsOpt alt) _ (Stmt.emitElse alt)
  | none, _ => c.pure _
  | some s, h => by
    have hs := Stmt.has_emit c .body s h
    cases s with
    | ifStmt test cons alt =>
      exact c.bind (c.condition (Expr.has_emit c test h.left.left)) fun _ =>
        c.bind (Stmt.has_emit c .body cons h.left.right) fun _ =>
          c.last (Stmt.has_emitElse c alt h.right)
    | _ => exact c.last hs

theorem SwitchCase.has_emitArms (c : Closed allowed R) (n : Nat) : (cases : List SwitchCase) →
    Admitted allowed (SwitchCase.nodes cases) → (value selected : String) →
    R true (SwitchCase.findsTests cases) _ (SwitchCase.emitArms n cases value selected)
  | [], _, _, _ => c.pure _
  | ⟨test, body⟩ :: rest, h, value, selected => by
    rw [SwitchCase.emitArms_cons]
    exact c.bind (c.armCode (Expr.has_emitOpt c test h.left.left) n value selected) fun _ =>
      c.last (SwitchCase.has_emitArms c (n + 1) rest h.right value selected)

theorem SwitchCase.has_emitBodies (c : Closed allowed R) (n : Nat) : (cases : List SwitchCase) →
    Admitted allowed (SwitchCase.nodes cases) → (selected : String) →
    R true (SwitchCase.findsBodies cases) _ (SwitchCase.emitBodies n cases selected)
  | [], _, _ => c.pure _
  | ⟨_, body⟩ :: rest, h, selected =>
    c.bind (Stmt.has_emitList c body h.left.right) fun _ =>
      c.last (SwitchCase.has_emitBodies c (n + 1) rest h.right selected)

theorem CatchClause.has_emitFirst (c : Closed allowed R) : (clauses : List CatchClause) →
    Admitted allowed (CatchClause.nodes clauses) → (CatchClause.emitFirst clauses).elim
      (CatchClause.findsFirst clauses = []) (R true (CatchClause.findsFirst clauses) _)
  | [], _ => rfl
  | ⟨param, body⟩ :: _, h => c.handlerCode param (Stmt.has_emitList c body h.left)

end

/-- The frame of a whole program, around the code of its body. -/
theorem Program.has_root (c : Closed allowed R) {p : Program} (h : p.Admits allowed) :
    R true ((Stmt.findsList p.body).filter (Find.passes (rootFrame (.ofBody p.body)))) _
      (inFrame (rootFrame (.ofBody p.body)) do
        let locals ← declareLocals (Declarations.ofBody p.body).funcs
        pure ([.marker "BEGIN"] ++ locals ++ (← Stmt.emitList p.body) ++ [.marker "END"])) :=
  c.lexical (kind_rootFrame _)
    (c.first (c.declareLocals _) fun _ => c.last (Stmt.has_emitList c p.body h))

end Walk

/-- The action adds allowed findings to those before it. -/
def Emission.Reports (allowed : Finding → Prop) (α : Type) (act : Emit α) : Prop :=
  ∀ s, ∃ new, (act s).2.findings = s.findings ++ new ∧ ∀ finding ∈ new, allowed finding

section Reports

variable {allowed : Finding → Prop}

/-- An action that reports nothing. -/
theorem Emission.Reports.of_silent {α : Type} {act : Emit α}
    (h : ∀ s, (act s).2.findings = s.findings) : Reports allowed α act :=
  fun s => ⟨[], by rw [h, List.append_nil], nofun⟩

theorem Emission.Reports.bind {α β : Type} {x : Emit α} {f : α → Emit β} (hx : Reports allowed α x)
    (hf : ∀ a, Reports allowed β (f a)) : Reports allowed β (x >>= f) := by
  intro s
  obtain ⟨first, hfirst, hallowed⟩ := hx s
  obtain ⟨second, hsecond, hallowed'⟩ := hf (x s).1 (x s).2
  refine ⟨first ++ second, ?_, List.forall_mem_append.mpr ⟨hallowed, hallowed'⟩⟩
  calc ((x >>= f) s).2.findings
      = (x s).2.findings ++ second := hsecond
    _ = s.findings ++ (first ++ second) := by rw [hfirst, List.append_assoc]

theorem Emission.reports_report {finding : Finding} (h : allowed finding) :
    Reports allowed Unit (report finding) :=
  fun _ => ⟨[finding], rfl, by simpa using h⟩

theorem Emission.closed_reports : Closed allowed fun _ _ => Reports allowed where
  widen := id
  alike _ := id
  pure _ := .of_silent fun _ => rfl
  bind := .bind
  fresh _ := .of_silent fun _ => rfl
  report h _ := reports_report h
  lookup name := by
    refine .of_silent fun s => ?_
    rw [lookup_eq]
    simp only
    split <;> rfl
  declareNew names := .of_silent fun s => by rw [declareNew_eq]
  breakJump _ := .of_silent fun _ => rfl
  continueJump _ := .of_silent fun _ => rfl
  lexical {_ _ _ _ frame} _ hx s := hx { s with scope := frame :: s.scope }
  within proxy _ hs hx := by
    refine .bind (fun s => ?_) fun _ =>
      .bind (reports_report (hs _)) fun _ => .of_silent fun _ => rfl
    exact hx { s with scope := .object "with" proxy :: s.scope, captured := [] :: s.captured }
  enclosed enclosure hx s := hx { s with control := enclosure :: s.control }
  detached hx s := hx { s with control := [] }

/-- What the emission of a program reports is what its nodes can have reported. -/
theorem Program.Admits.findings {p : Program} (h : p.Admits allowed) :
    ∀ finding ∈ p.emit.findings, allowed finding := by
  obtain ⟨new, hnew, hallowed⟩ :=
    Program.has_root closed_reports h { scope := [.object "program" Lua.globalObjects] }
  intro finding hmem
  have hfindings : p.emit.findings = new := hnew
  rw [hfindings] at hmem
  exact hallowed finding hmem

end Reports

end EcmaLua
