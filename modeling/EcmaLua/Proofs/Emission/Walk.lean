import EcmaLua.Proofs.Emission.Judgement

/-!
# Judgements of whole programs

A judgement that reaches through statements holds of the code of all fragments of a program that
are as it asks. What is asked of a fragment is asked of its parts too, but for the body of a
function: there the judgement may be another one of the family.
-/

namespace EcmaLua.Emission

open Lua (Stat)

/-- Whether the code of a statement can end with a `return`: it can in the body of a construct,
and in a list when the statement is the last of its block. -/
def Place.closes : Place → Stmt → Bool
  | .body, _ => true
  | .statement labels, s => labels.isEmpty && s.endsBlock

namespace Judgement

section Reach

variable {τ : Type} (J : τ → Judgement) (W : {α : Type} → (α → Prop) → Emit α → Prop)
  (label : τ → String → Prop) (tail : τ → Lua.Tail → Prop)

/-- The code is a block, and others can follow it unless it can end with a `return`. -/
def Fits (J : Judgement) (closes : Bool) (code : List Stat) : Prop :=
  J.block code ∧ (closes = false → J.code code)

/-- The judgement holds of the code of a fragment. -/
def HoldsAt (t : τ) : Fragment → Prop
  | .expr e => (J t).Holds W (.expr e)
  | .prop p => (J t).Holds W (.prop p)
  | .func f => W (J t).action f.emit
  | .decl d => W (J t).code (initCode d.name d.init)
  | .clause c => W (fun result => (∀ p ∈ result.1, (J t).parameter p) ∧ (J t).body result.2)
      (handlerCode c.param (Stmt.emitList c.body))
  | .case c => (∀ n v s, (J t).temporary v → (J t).temporary s →
      W (J t).arms (armCode n c.test v s)) ∧ W (J t).block (Stmt.emitList c.body)
  | .init i => W (J t).code i.emit
  | .head (.target e) => (J t).Holds W (.expr e)
  | .head (.var ..) => True
  | .stmt s => (∀ place : Place, (∀ l ∈ place.labels, label t l) →
      W (Fits (J t) (place.closes s)) (s.emit place)) ∧ W (tail t) (Stmt.emitElse (some s))

/-- The judgements hold of all code, given what is asked of fragments. -/
structure Reaches (head : τ → String × List Stat → Prop) (K : τ → Fragment → Prop) : Prop where
  law : ∀ {t p}, K t p → (J t).Lawful W
  parts : ∀ {t p}, K t p → (∀ f, p ≠ .func f) → ∀ q ∈ p.parts, K t q
  ready : ∀ {t p}, K t p → (∀ f, p = .expr (.func f) → W (J t).action f.emit) → (J t).Ready W p
  function : ∀ {t f}, K t (.func f) →
    (∀ t', ∀ s ∈ f.body, (K t' (.stmt s) → HoldsAt J W label tail t' (.stmt s)) ∧
      ∀ g, s = .funcStmt g → K t' (.func g) → W (J t').action g.emit) → W (J t).action f.emit
  labels : ∀ {t l s}, K t (.stmt (.labeled l s)) → label t l
  param : ∀ {t c}, K t (.clause c) → ∀ p ∈ c.param, (J t).parameter (Lua.spell p)
  declared : ∀ {t k ds}, K t (.stmt (.varStmt k ds)) ∨ K t (.init (.vars k ds)) →
    W (J t).code (declareLocals (Declarator.names ds))
  named : ∀ {t d}, K t (.decl d) → (J t).place (.name (Lua.spell d.name))
  declaration : ∀ {t f}, K t (.stmt (.funcStmt f)) → W (J t).action f.emit →
    W (J t).code (functionDeclaration f.name f.emit)
  breakCode : ∀ {t l s}, K t (.stmt (.breakStmt l s)) → W (J t).code (breakCode l s)
  continueCode : ∀ {t l s}, K t (.stmt (.continueStmt l s)) → W (J t).code (continueCode l s)
  note : ∀ {t n}, K t (.stmt (.unsupported n)) → (J t).code [.note n.kind]
  key : ∀ {t h o b}, K t (.stmt (.forInStmt h o b)) →
    (∀ e, h = .target e → e.emit.Lawful (J t) W e.isTarget) → W (head t) h.emit
  labeled : ∀ {α} {P : α → Prop} {x : Emit α} labels, W P x → W P (labeled labels x)
  nested : ∀ {t labels code}, (∀ l ∈ labels, label t l) → (J t).code code →
    (J t).code (nested labels code)
  loopBody : ∀ {t labels body}, (∀ l ∈ labels, label t l) → W (J t).block body →
    W (J t).code (loopBody labels body)
  whileLoop : ∀ {t e b}, (J t).value e → (J t).block b → (J t).code [.whileLoop e b]
  repeatUntil : ∀ {t b e}, (J t).block b → (J t).value e → (J t).code [.repeatUntil b e]
  enclosed : ∀ {t x}, W (J t).code x → W (fun result => (J t).code result.1) (enclosed .switch x)
  walled : ∀ {t x}, W (J t).block x → W (J t).body (walled x)
  forIn : ∀ {t h o b labels w body}, K t (.stmt (.forInStmt h o b)) → o.emit.Lawful (J t) W w →
    W (head t) h.emit → W (J t).code (Emission.loopBody labels body) →
    W (J t).code (forInCode labels o.emit h.emit body)
  withCode : ∀ {t o b span w body}, K t (.stmt (.withStmt o b span)) → o.emit.Lawful (J t) W w →
    W (J t).block body → W (J t).code (withCode span o.emit body)
  arms : ∀ {t as bs}, (J t).arms as → (J t).arms bs → (J t).arms (as ++ bs)
  noTail : ∀ {t}, tail t .none
  otherwise : ∀ {t b}, (J t).block b → tail t (.otherwise b)
  elseif : ∀ {t e b r}, (J t).value e → (J t).block b → tail t r → tail t (.elseif e b r)
  ifThen : ∀ {t e b r}, (J t).value e → (J t).block b → tail t r → (J t).code [.ifThen e b r]

end Reach

namespace Reaches

variable {τ : Type} {J : τ → Judgement} {W : {α : Type} → (α → Prop) → Emit α → Prop}
  {label : τ → String → Prop} {tail : τ → Lua.Tail → Prop} {head : τ → String × List Stat → Prop}
  {K : τ → Fragment → Prop} (hr : Reaches J W label tail head K) {t : τ}

theorem list (c : (J t).Lawful W) {body : List Stmt}
    (h : ∀ s ∈ body, HoldsAt J W label tail t (.stmt s)) : W (J t).block (Stmt.emitList body) := by
  induction body with
  | nil => exact c.pure (c.ofCode c.empty)
  | cons s rest ih =>
    obtain ⟨hs, hrest⟩ := List.forall_mem_cons.mp h
    refine c.bind (hs.1 (.statement []) (List.forall_mem_nil _)) fun code hc => ?_
    cases hends : s.endsBlock with
    | true => exact c.pure hc.1
    | false => exact c.last (ih hrest) fun _ => c.before (hc.2 (by simp [Place.closes, hends]))

theorem optional {e : Option Expr} (h : ∀ a ∈ e, HoldsAt J W label tail t (.expr a)) :
    ∀ r ∈ Expr.emitOpt e, r.Lawful (J t) W false := by
  cases e with
  | none => exact fun _ h => absurd h (Option.not_mem_none _)
  | some e =>
    rintro _ ⟨⟩
    exact Rendition.Lawful.forget (h e rfl)

theorem declarators (c : (J t).Lawful W) {ds : List Declarator}
    (h : ∀ d ∈ ds, HoldsAt J W label tail t (.decl d)) : W (J t).code (Declarator.emit ds) := by
  induction ds with
  | nil => exact c.pure c.empty
  | cons d rest ih =>
    obtain ⟨hd, hrest⟩ := List.forall_mem_cons.mp h
    obtain ⟨name, init⟩ := d
    rw [Declarator.emit_cons]
    exact c.bind hd fun _ hi => c.last (ih hrest) fun _ => c.append hi

theorem emitArms (hr : Reaches J W label tail head K) (c : (J t).Lawful W) {cs : List SwitchCase}
    (h : ∀ a ∈ cs, HoldsAt J W label tail t (.case a)) {v s : String} (hv : (J t).temporary v)
    (hs : (J t).temporary s) (n : Nat) : W (J t).arms (SwitchCase.emitArms n cs v s) := by
  induction cs generalizing n with
  | nil => exact c.pure c.noArms
  | cons a rest ih =>
    obtain ⟨ha, hrest⟩ := List.forall_mem_cons.mp h
    obtain ⟨test, body⟩ := a
    rw [SwitchCase.emitArms_cons]
    exact c.bind (ha.1 n v s hv hs) fun _ ha => c.last (ih hrest (n + 1)) fun _ => hr.arms ha

theorem emitBodies (c : (J t).Lawful W) {cs : List SwitchCase}
    (h : ∀ a ∈ cs, HoldsAt J W label tail t (.case a)) {s : String}
    (hs : (J t).temporary s) (n : Nat) : W (J t).code (SwitchCase.emitBodies n cs s) := by
  induction cs generalizing n with
  | nil => exact c.pure c.empty
  | cons a rest ih =>
    obtain ⟨ha, hrest⟩ := List.forall_mem_cons.mp h
    obtain ⟨test, body⟩ := a
    refine c.bind ha.2 fun _ hb => c.last (ih hrest (n + 1)) fun _ => c.append ?_
    split
    · exact c.empty
    · exact c.caseBody hs n hb

include hr

theorem fits (c : (J t).Lawful W) {labels : List String} (hl : ∀ l ∈ labels, label t l)
    {closes : Bool} {code : List Stat} (h : (J t).code code) :
    Fits (J t) closes (Emission.nested labels code) :=
  ⟨c.ofCode (hr.nested hl h), fun _ => hr.nested hl h⟩

theorem labeledCode (c : (J t).Lawful W) {labels : List String} (hl : ∀ l ∈ labels, label t l)
    {code : Emit (List Stat)} {closes : Bool} (h : W (J t).code code) :
    W (Fits (J t) closes) (labeledCode labels code) :=
  c.last (hr.labeled labels h) fun _ => hr.fits c hl

theorem alternative (c : (J t).Lawful W) (alt : Option Stmt)
    (h : ∀ s ∈ alt, HoldsAt J W label tail t (.stmt s)) : W (tail t) (Stmt.emitElse alt) := by
  cases alt with
  | none => exact c.pure hr.noTail
  | some s => exact (h s rfl).2

theorem statement {s : Stmt} (hk : K t (.stmt s))
    (h : ∀ q ∈ (Fragment.stmt s).parts, HoldsAt J W label tail t q) (place : Place)
    (hl : ∀ l ∈ place.labels, label t l) : W (Fits (J t) (place.closes s)) (s.emit place) := by
  have c := hr.law hk
  have hnested {code : Emit (List Stat)} {closes : Bool} (h : W (J t).code code) :
      W (Fits (J t) closes) (do Pure.pure (Emission.nested place.labels (← code))) :=
    c.last h fun _ => hr.fits c hl
  have hblock {s : Stmt} (hs : HoldsAt J W label tail t (.stmt s)) : W (J t).block (s.emit .body) :=
    c.mono (hs.1 .body (List.forall_mem_nil _)) fun _ hc => hc.1
  cases s with
  | empty => exact hr.labeledCode c hl (c.pure c.empty)
  | exprStmt e => exact hr.labeledCode c hl (h _ (.head _)).effect
  | varStmt k ds =>
    exact hr.labeledCode c hl (c.bind (hr.declared (.inl hk)) fun _ hd =>
      c.last (declarators c fun d hd => h _ (List.mem_map_of_mem hd)) fun _ => c.append hd)
  | funcStmt f => exact hr.labeledCode c hl (hr.declaration hk (h _ (.head _)))
  | returnStmt arg =>
    have harg : ∀ v ∈ (Expr.emitOpt arg).map Rendition.value, W (J t).value v := by
      intro v hv
      obtain ⟨r, hr', rfl⟩ := Option.map_eq_some_iff.mp hv
      exact (optional (fun a ha => h (.expr a) (by simp_all [Fragment.parts])) r hr').value
    -- under labels it stands in a block of its own
    refine c.last (hr.labeled _ (c.returned harg)) fun code hc => ?_
    rcases place with (_ | ⟨l, labels⟩) | _
    · exact ⟨hc, fun h => absurd h.symm Bool.false_ne_true⟩
    · exact hr.fits c hl (c.doBlock hc)
    · exact ⟨hc, fun h => absurd h.symm Bool.false_ne_true⟩
  | throwStmt e => exact hr.labeledCode c hl (c.thrown (h _ (.head _)).value)
  | breakStmt l sp => exact hr.labeledCode c hl (hr.breakCode hk)
  | continueStmt l sp => exact hr.labeledCode c hl (hr.continueCode hk)
  | ifStmt test cons alt =>
    have halt := hr.alternative c alt fun s hs => h (.stmt s) (by simp_all [Fragment.parts])
    exact hr.labeledCode c hl (c.bind (c.condition (h _ (.head _))) fun _ hc =>
      c.bind (hblock (h _ (.tail _ (.head _)))) fun _ hb => c.last halt fun _ => hr.ifThen hc hb)
  | whileStmt test body =>
    exact hnested (c.whileCode hr.whileLoop (h _ (.head _))
      (hr.loopBody hl (hblock (h _ (.tail _ (.head _))))))
  | doWhileStmt body test =>
    exact hnested (c.doWhileCode hr.repeatUntil (h _ (.tail _ (.head _)))
      (hr.loopBody hl (hblock (h _ (.head _)))))
  | forStmt init test update body =>
    exact hnested (c.forCode hr.whileLoop (h _ (.head _))
      (optional fun a ha => h _ (by simp_all [Fragment.parts]))
      (c.updateCode (optional fun a ha => h _ (by simp_all [Fragment.parts])))
      (hr.loopBody hl (hblock (h (.stmt body) (by simp [Fragment.parts])))))
  | forInStmt target object body =>
    have hkey := hr.key hk fun e he => by
      subst he
      exact h (.head (.target e)) (.head _)
    exact hnested (hr.forIn hk (h (.expr object) (.tail _ (.head _))) hkey
      (hr.loopBody hl (hblock (h _ (.tail _ (.tail _ (.head _)))))))
  | switchStmt value cs =>
    have hcases : ∀ a ∈ cs, HoldsAt J W label tail t (.case a) :=
      fun a ha => h _ (.tail _ (List.mem_map_of_mem ha))
    exact hr.labeledCode c hl (c.switchCode hr.repeatUntil (h _ (.head _))
      (fun _ _ hv hs => emitArms hr c hcases hv hs 1) _
      fun _ hs => hr.enclosed (emitBodies c hcases hs 1))
  | tryStmt block handlers finalizer span =>
    refine hr.labeledCode c hl (c.tryCode span (hr.walled (list c fun s hs => h _ ?_)) _ ?_ ?_)
    · simp [Fragment.parts, hs]
    · cases handlers with
      | nil => exact fun _ h => absurd h (Option.not_mem_none _)
      | cons clause rest =>
        obtain ⟨param, body⟩ := clause
        rintro _ ⟨⟩
        exact h (.clause ⟨param, body⟩) (by simp [Fragment.parts])
    · cases finalizer with
      | none => exact fun _ h => absurd h (Option.not_mem_none _)
      | some body =>
        rintro _ ⟨⟩
        exact hr.walled (list c fun s hs => h _ (by simp [Fragment.parts, hs]))
  | withStmt object body span =>
    exact hr.labeledCode c hl (hr.withCode hk (h _ (.head _)) (hblock (h _ (.tail _ (.head _)))))
  | labeled l body =>
    have hs := (h (.stmt body) (.head _)).1 (.statement (place.labels ++ [l]))
      (List.forall_mem_append.mpr ⟨hl, List.forall_mem_singleton.mpr (hr.labels hk)⟩)
    refine c.mono hs fun _ hc => ⟨hc.1, fun _ => hc.2 (by simp [Place.closes])⟩
  | block body =>
    have hbody := list c fun s hs => h (.stmt s) (List.mem_map_of_mem hs)
    cases place with
    | body => exact c.mono hbody fun _ hb => ⟨hb, fun h => absurd h.symm Bool.false_ne_true⟩
    | statement labels => exact hr.labeledCode c hl (c.last hbody fun _ => c.doBlock)
  | unsupported node => exact hr.labeledCode c hl (c.last (c.report _) fun _ _ => hr.note hk)

/-- A judgement that reaches through programs holds of all fragments that are as it asks. -/
theorem holdsAt (t : τ) (p : Fragment) (h : K t p) : HoldsAt J W label tail t p := by
  suffices hall : ∀ t, (K t p → HoldsAt J W label tail t p) ∧
      ∀ g, p = .stmt (.funcStmt g) → K t (.func g) → W (J t).action g.emit from (hall t).1 h
  clear h
  induction p using Fragment.induct with
  | h p ih =>
    refine fun t => ⟨fun hk => ?_, ?_⟩
    · have c := hr.law hk
      by_cases hp : ∃ f, p = .func f
      · obtain ⟨f, rfl⟩ := hp
        exact hr.function hk fun t' s hs => have hs := ih (.stmt s) (List.mem_map_of_mem hs) t'
          ⟨hs.1, fun g hg => hs.2 g (congrArg _ hg)⟩
      have h q hq := (ih q hq t).1 (hr.parts hk (fun f hf => hp ⟨f, hf⟩) q hq)
      have hready := hr.ready hk (by rintro f rfl; exact h (.func f) (.head _))
      cases p with
      | func f => exact absurd ⟨f, rfl⟩ hp
      | expr | prop =>
        refine c.step (fun q hq => ?_) hready
        have hq := h q hq
        cases q <;> first | exact hq | trivial
      | decl d =>
        exact c.initCode (hr.named hk)
          (optional fun a ha => h (.expr a) (by simp_all [Fragment.parts]))
      | clause d =>
        exact c.handlerCode (hr.param hk)
          (hr.walled (list c fun s hs => h (.stmt s) (List.mem_map_of_mem hs)))
      | case d =>
        exact ⟨fun n v s hv hs => c.armCode n hv hs
          (optional fun a ha => h (.expr a) (by simp_all [Fragment.parts])),
          list c fun s hs => h (.stmt s) (by simp [Fragment.parts, hs])⟩
      | init i =>
        cases i with
        | none => exact c.pure c.empty
        | vars k ds =>
          exact c.bind (hr.declared (.inr hk)) fun _ hd =>
            c.last (declarators c fun d hd => h _ (List.mem_map_of_mem hd)) fun _ => c.append hd
        | expr e => exact (h (.expr e) (.head _)).effect
      | head d =>
        cases d with
        | var => trivial
        | target e => exact h (.expr e) (.head _)
      | stmt s =>
        have hcode := hr.statement hk h
        refine ⟨hcode, ?_⟩
        cases s with
        | ifStmt test cons alt =>
          have halt := hr.alternative c alt fun s hs =>
            h (.stmt s) (by simp_all [Fragment.parts])
          have hcons := c.mono ((h (.stmt cons) (.tail _ (.head _))).1 .body
            (List.forall_mem_nil _)) fun _ hb => hb.1
          exact c.bind (c.condition (h _ (.head _))) fun _ hc => c.bind hcons fun _ hb =>
            c.last halt fun _ => hr.elseif hc hb
        | _ => exact c.last (hcode .body (List.forall_mem_nil _)) fun _ hb => hr.otherwise hb.1
    · rintro g rfl hk
      exact (ih (.func g) (.head _) t).1 hk

end Reaches

end Judgement

end EcmaLua.Emission
