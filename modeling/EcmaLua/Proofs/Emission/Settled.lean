import EcmaLua.Proofs.Emission.Jumps

/-!
# The walk over a program and its jumps

What making the code of a fragment does, from what making that of its parts does. What is asked of
a fragment is about the comments and the loops that it becomes; what is said of a statement is that
making its code has the statement's own bare `continue`s, and that nothing else in the code meets a
landing whose name no identifier or label is spelled like.
-/

namespace EcmaLua

open Emission
open Lua (Vocabulary Helper Stat)

/-- The body of a loop. -/
def Stmt.looped : Stmt → Option Stmt
  | .whileStmt _ body | .doWhileStmt body _ | .forStmt _ _ _ body | .forInStmt _ _ body => some body
  | _ => none

namespace Emission

/-- What is asked of fragments: the comments and the loops that they become are of the
vocabulary. -/
structure Admits (v : Vocabulary) (K : Fragment → Prop) : Prop where
  parts : ∀ {p}, K p → ∀ q ∈ p.parts, K q
  expr : ∀ {node}, K (.expr (.unsupported node)) → v.note node.kind
  stmt : ∀ {node}, K (.stmt (.unsupported node)) → v.note node.kind
  loop : ∀ {s body}, K (.stmt s) → s.looped = some body → Runs v (body.emit .body)

/-- What making the code of a fragment does. -/
def Settles (v : Vocabulary) : Fragment → Prop
  | .expr e => (Judgement.settled v).Holds Gives (.expr e)
  | .prop p => (Judgement.settled v).Holds Gives (.prop p)
  | .func f => Gives (Lua.Expr.Settled v) f.emit
  | .decl d => Gives (Quiet v) (initCode d.name d.init)
  | .clause c => Gives (fun result => (∀ p ∈ result.1, v.name p) ∧
      Stat.SettledBlock v [] false result.2) (handlerCode c.param (Stmt.emitList c.body))
  | .case c => (∀ k value selected, v.name value → v.name selected →
      Gives (Lua.Arm.SettledList v) (armCode k c.test value selected)) ∧
    Codes v (Stmt.bareContinuesList c.body) (fun name => Stmt.ObeysList (.avoiding name) c.body)
      (Stmt.emitList c.body)
  | .init i => Gives (Quiet v) i.emit
  | .head h => Gives (fun result => v.name result.1 ∧ Quiet v result.2) h.emit
  | .stmt s => (∀ place : Place, Codes v s.bareContinues
      (Apart (fun name => s.Obeys (.avoiding name)) place.labels) (s.emit place)) ∧
    Alters v s.bareContinues (fun name => s.Obeys (.avoiding name)) (Stmt.emitElse (some s))

namespace Settles

variable {v : Vocabulary}

theorem list {body : List Stmt} (h : ∀ s ∈ body, Settles v (.stmt s)) :
    Codes v (Stmt.bareContinuesList body) (fun name => Stmt.ObeysList (.avoiding name) body)
      (Stmt.emitList body) := by
  induction body with
  | nil => exact Gives.codes (.pure .nil)
  | cons s rest ih =>
    obtain ⟨hs, hrest⟩ := List.forall_mem_cons.mp h
    have hfirst := hs.1 (.statement [])
    rw [Stmt.emitList, Stmt.bareContinuesList]
    cases hends : s.endsBlock with
    | true => exact hfirst.mono fun _ ha => ⟨ha.1, List.forall_mem_nil _⟩
    | false =>
      exact (hfirst.append (ih hrest)).mono fun _ ha => ⟨⟨ha.1, List.forall_mem_nil _⟩, ha.2⟩

theorem body {s : Stmt} (h : Settles v (.stmt s)) :
    Codes v s.bareContinues (fun name => s.Obeys (.avoiding name)) (s.emit .body) :=
  (h.1 .body).mono fun _ ha => ⟨ha, List.forall_mem_nil _⟩

theorem optional {e : Option Expr} (h : ∀ a ∈ e, Settles v (.expr a)) :
    ∀ r ∈ Expr.emitOpt e, r.Calm v := by
  cases e with
  | none => exact fun _ h => absurd h (Option.not_mem_none _)
  | some e =>
    rintro _ ⟨⟩
    exact Rendition.Lawful.forget (h e rfl)

theorem declarators {ds : List Declarator} (h : ∀ d ∈ ds, Settles v (.decl d)) :
    Gives (Quiet v) (Declarator.emit ds) := by
  induction ds with
  | nil => exact .pure .nil
  | cons d rest ih =>
    obtain ⟨hd, hrest⟩ := List.forall_mem_cons.mp h
    obtain ⟨name, init⟩ := d
    rw [Declarator.emit_cons]
    exact Gives.bind hd fun _ hi => (ih hrest).bind fun _ hcode => .pure (hi.append hcode)

theorem alternative {alt : Option Stmt} (h : ∀ s ∈ alt, Settles v (.stmt s)) :
    Alters v (Stmt.bareContinuesOpt alt) (fun name => Stmt.ObeysOpt (.avoiding name) alt)
      (Stmt.emitElse alt) := by
  cases alt with
  | none => exact alters_none
  | some s => exact (h s rfl).2

section Cases

variable {cs : List SwitchCase} (h : ∀ c ∈ cs, Settles v (.case c)) {selected : String}
  (hs : v.name selected)

include h hs

theorem arms {value : String} (hvalue : v.name value) (k : Nat) :
    Gives (Lua.Arm.SettledList v) (SwitchCase.emitArms k cs value selected) := by
  induction cs generalizing k with
  | nil => exact .pure trivial
  | cons c rest ih =>
    obtain ⟨hc, hrest⟩ := List.forall_mem_cons.mp h
    obtain ⟨test, body⟩ := c
    rw [SwitchCase.emitArms_cons]
    exact (hc.1 k value selected hvalue hs).bind fun _ ha =>
      (ih hrest (k + 1)).bind fun _ harms => .pure (settledArms_append ha harms)

theorem bodies (k : Nat) : Codes v (SwitchCase.bareContinues cs)
    (fun name => SwitchCase.Obeys (.avoiding name) cs) (SwitchCase.emitBodies k cs selected) := by
  induction cs generalizing k with
  | nil => exact Gives.codes (.pure .nil)
  | cons c rest ih =>
    obtain ⟨hc, hrest⟩ := List.forall_mem_cons.mp h
    have hrest := ih hrest (k + 1)
    rcases c with ⟨test, _ | ⟨s, body⟩⟩
    · exact ((Gives.codes (.pure .nil)).append hrest).mono fun _ ha => ⟨trivial, ha.2.2⟩
    · exact ((codes_caseBody hs k hc.2).append hrest).mono fun _ ha => ha.2

end Cases

variable {K : Fragment → Prop} (hv : Covers v) (hK : Admits v K)

include hv

/-- A statement that is no loop, under its labels. -/
theorem plain {n : Nat} {free free' : String → Prop} {code : Emit (List Stat)}
    (labels : List String) (h : Codes v n free code) (hf : ∀ name, free' name → free name) :
    Codes v n (Apart free' labels) (labeledCode labels code) :=
  (h.labeled hv labels).mono fun name hname => hf name hname.1

theorem attempt {block : List Stmt} {handlers : List CatchClause} {finalizer : Option (List Stmt)}
    {span : Span}
    (h : ∀ q ∈ (Fragment.stmt (.tryStmt block handlers finalizer span)).parts, Settles v q) :
    Gives (Quiet v) (tryCode span (Stmt.emitList block) handlers.length
      (CatchClause.emitFirst handlers) (Stmt.emitBlock finalizer)) := by
  refine hv.law.tryCode span (gives_walled (list fun s hs => h _ ?_)) _ ?_ ?_
  · simp [Fragment.parts, hs]
  · cases handlers with
    | nil => exact fun _ h => absurd h (Option.not_mem_none _)
    | cons clause rest =>
      obtain ⟨param, body⟩ := clause
      rintro _ ⟨⟩
      exact h (.clause ⟨param, body⟩) (by simp [Fragment.parts])
  · cases finalizer with
    | none => exact fun _ h => absurd h (Option.not_mem_none _)
    | some body =>
      rintro _ ⟨⟩
      exact gives_walled (list fun s hs => h _ (by simp [Fragment.parts, hs]))

include hK

theorem statement {s : Stmt} (hk : K (.stmt s)) (h : ∀ q ∈ (Fragment.stmt s).parts, Settles v q)
    (place : Place) : Codes v s.bareContinues
      (Apart (fun name => s.Obeys (.avoiding name)) place.labels) (s.emit place) := by
  have hpart {q : Fragment} (hq : q ∈ (Fragment.stmt s).parts) : Settles v q := h q hq
  have hcalm {e : Expr} (hq : .expr e ∈ (Fragment.stmt s).parts) : e.emit.Calm v :=
    Rendition.Lawful.forget (h (.expr e) hq)
  cases s with
  | empty => exact plain hv _ (Gives.codes (.pure .nil)) fun _ => id
  | exprStmt e => exact plain hv _ (Gives.codes (hcalm (.head _)).effect) fun _ => id
  | varStmt k ds =>
    exact plain hv _ (Gives.codes ((gives_declareLocals hv _).bind fun _ hl =>
      (declarators fun d hd => h _ (List.mem_map_of_mem hd)).bind fun _ hd =>
        .pure (hl.append hd))) fun _ => id
  | funcStmt f =>
    exact plain hv _ (Gives.codes (hv.law.functionDeclaration
      (fun n _ => ⟨gives_declareLocals hv [n], hv.spell n⟩) (h (.func f) (.head _)))) fun _ => id
  | returnStmt arg =>
    refine Codes.mono (Codes.labeledReturn hv (Gives.codes (hv.law.returned fun a ha => ?_))
      place.labels) fun _ ha => ha.1
    obtain ⟨r, hr, rfl⟩ := Option.map_eq_some_iff.mp ha
    exact (optional (fun a ha => h (.expr a) (by simp_all [Fragment.parts])) r hr).value
  | throwStmt e =>
    exact plain hv _ (Gives.codes (hv.law.thrown (hcalm (.head _)).value)) fun _ => id
  | breakStmt label span => exact plain hv _ (codes_breakCode hv label span) fun _ => id
  | continueStmt label span =>
    cases label with
    | none => exact plain hv _ (codes_continueBare hv span) fun _ => id
    | some label => exact plain hv _ (codes_continueLabeled hv label span) fun _ => id
  | ifStmt test cons alt =>
    exact plain hv _ (codes_branch hv (hcalm (.head _)) (hpart (.tail _ (.head _))).body
      (alternative fun s hs => h (.stmt s) (by simp_all [Fragment.parts]))) fun _ ha => ha.2
  | whileStmt test body =>
    exact (codes_whileCode hv (hcalm (.head _)) (hK.loop hk rfl)
      (hpart (.tail _ (.head _))).body _).mono fun _ ha => ⟨ha.1.2, ha.2⟩
  | doWhileStmt body test =>
    exact (codes_doWhileCode hv (hcalm (.tail _ (.head _))) (hK.loop hk rfl)
      (hpart (.head _)).body _).mono fun _ ha => ⟨ha.1.1, ha.2⟩
  | forStmt init test update body =>
    have hbody : .stmt body ∈ (Fragment.stmt (.forStmt init test update body)).parts := by
      simp [Fragment.parts]
    exact (codes_forCode hv (hpart (.head _))
      (optional fun a ha => h (.expr a) (by simp_all [Fragment.parts]))
      (hv.law.updateCode (optional fun a ha => h (.expr a) (by simp_all [Fragment.parts])))
      (hK.loop hk rfl) (hpart hbody).body _).mono fun _ ha => ⟨ha.1.2.2.2, ha.2⟩
  | forInStmt head object body =>
    exact (codes_forInCode hv (hcalm (.tail _ (.head _))) (hpart (.head _))
      (hK.loop hk rfl) (hpart (.tail _ (.tail _ (.head _)))).body _).mono
      fun _ ha => ⟨ha.1.2.2, ha.2⟩
  | switchStmt discriminant cs =>
    have hcases : ∀ c ∈ cs, Settles v (.case c) :=
      fun c hc => h _ (.tail _ (List.mem_map_of_mem hc))
    exact plain hv _ (codes_switchCode hv (hcalm (.head _))
      (fun _ _ hvalue hs => arms hcases hs hvalue 1) _ fun _ hs => bodies hcases hs 1)
      fun _ ha => ha.2
  | tryStmt block handlers finalizer span =>
    exact plain hv _ (Gives.codes (attempt hv h)) fun _ => id
  | withStmt object body span =>
    exact plain hv _ (codes_withCode hv span (hcalm (.head _)) (hpart (.tail _ (.head _))).body)
      fun _ ha => ha.2
  | labeled label body =>
    exact ((hpart (.head _)).1 (.statement (place.labels ++ [label]))).mono fun _ ha =>
      ⟨ha.1.2, List.forall_mem_append.mpr ⟨ha.2, List.forall_mem_singleton.mpr ha.1.1⟩⟩
  | block body =>
    have hbody := list fun s hs => h (.stmt s) (List.mem_map_of_mem hs)
    cases place with
    | body => exact hbody.mono fun _ ha => ha.1
    | statement labels =>
      have hblock := hbody.recode (fun code => Stat.ownMarksList_singleton (.doBlock code))
        fun _ _ _ hs => ⟨hs, trivial⟩
      exact plain hv labels hblock fun _ => id
  | unsupported node => exact plain hv _ (codes_unsupportedCode (hK.stmt hk)) fun _ => id

end Settles

/-- The fragments that are as the vocabulary asks have settled code. -/
theorem Admits.settles {v : Vocabulary} {K : Fragment → Prop} (hv : Covers v) (hK : Admits v K)
    (p : Fragment) (hk : K p) : Settles v p := by
  induction p using Fragment.induct with
  | h p ih =>
    have h (q : Fragment) (hq : q ∈ p.parts) : Settles v q := ih q hq (hK.parts hk q hq)
    have hholds (q : Fragment) (hq : q ∈ p.parts) : (Judgement.settled v).Holds Gives q := by
      have hq := h q hq
      cases q <;> first | exact hq | trivial
    cases p with
    | expr e =>
      refine hv.law.step hholds ?_
      cases e with
      | ident name => exact ⟨hv.spell _, hv.spell _⟩
      | func f => exact ⟨fun n _ => hv.spell n, h (.func f) (.head _)⟩
      | update | assign => exact .inl trivial
      | unsupported node => exact ⟨⟨trivial, hK.expr hk⟩, quiet_note (hK.expr hk)⟩
      | _ => trivial
    | prop p => exact hv.law.step hholds trivial
    | func f =>
      obtain ⟨name, params, body⟩ := f
      exact gives_functionCode hv params _
        (Settles.list fun s hs => h (.stmt s) (List.mem_map_of_mem hs))
    | decl d =>
      exact hv.law.initCode (hv.spell d.name)
        (Settles.optional fun a ha => h (.expr a) (by simp_all [Fragment.parts]))
    | clause c =>
      exact hv.law.handlerCode (fun p _ => hv.spell p)
        (gives_walled (Settles.list fun s hs => h (.stmt s) (List.mem_map_of_mem hs)))
    | case c =>
      exact ⟨fun k value selected hvalue hs => hv.law.armCode k hvalue hs
        (Settles.optional fun a ha => h (.expr a) (by simp_all [Fragment.parts])),
        Settles.list fun s hs => h (.stmt s) (by simp [Fragment.parts, hs])⟩
    | init i =>
      cases i with
      | none => exact .pure .nil
      | vars k ds =>
        exact (gives_declareLocals hv _).bind fun _ hl =>
          (Settles.declarators fun d hd => h _ (List.mem_map_of_mem hd)).bind fun _ hd =>
            .pure (hl.append hd)
      | expr e => exact (h (.expr e) (.head _)).effect
    | head i =>
      change Gives (fun result => v.name result.1 ∧ Quiet v result.2) i.emit
      cases i with
      | var k name => exact .pure ⟨hv.spell name, .nil⟩
      | target e =>
        have htarget : Gives (Lua.Expr.Settled v) e.emit.target :=
          (h (.expr e) (.head _)).target (.inl trivial)
        cases e
        case ident name => exact .pure ⟨hv.spell name, .nil⟩
        all_goals
          refine (gives_fresh hv (by decide)).bind fun _ hk => ?_
          refine htarget.bind fun _ ht => .pure ⟨hk, ?_⟩
          exact .one rfl fun _ _ => ⟨ht, hk⟩
    | stmt s =>
      have hcode := Settles.statement hv hK hk h
      refine ⟨hcode, ?_⟩
      cases s with
      | ifStmt test cons alt =>
        have hall := alters_elseif hv (Rendition.Lawful.forget (h (.expr test) (.head _)))
          (h (.stmt cons) (.tail _ (.head _))).body
          (Settles.alternative fun s (hs : s ∈ alt) => h (.stmt s) (by simp_all [Fragment.parts]))
        exact fun s => (hall s).mono fun _ ha => ha.2
      | _ => exact alters_otherwise ((hcode .body).mono fun _ ha => ⟨ha, List.forall_mem_nil _⟩)

end Emission

section Anything

/-- Where everything may be named, no program is left out. -/
theorem Emission.settles_all (p : Fragment) : Settles .all p :=
  Admits.settles (K := fun _ => True) covers_all
    ⟨fun _ _ _ => trivial, fun _ => trivial, fun _ => trivial, fun _ _ _ _ _ _ => trivial⟩ p trivial

theorem Expr.calm_all (e : Expr) : e.emit.Calm .all :=
  Rendition.Lawful.forget (settles_all (.expr e))

theorem Stmt.codes_all (place : Place) (s : Stmt) :
    Codes .all s.bareContinues (Apart (fun name => s.Obeys (.avoiding name)) place.labels)
      (s.emit place) :=
  (settles_all (.stmt s)).1 place

theorem Stmt.codesList_all (body : List Stmt) :
    Codes .all (Stmt.bareContinuesList body) (fun name => Stmt.ObeysList (.avoiding name) body)
      (Stmt.emitList body) :=
  Settles.list fun s _ => settles_all (.stmt s)

theorem Stmt.alters_all (alt : Option Stmt) :
    Alters .all (Stmt.bareContinuesOpt alt) (fun name => Stmt.ObeysOpt (.avoiding name) alt)
      (Stmt.emitElse alt) :=
  Settles.alternative fun s _ => settles_all (.stmt s)

end Anything

end EcmaLua
