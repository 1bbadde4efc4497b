import EcmaLua.Proofs.Emission.Calm
import EcmaLua.Proofs.Program.Rules

/-!
# Statements and their jumps

The constructs of statements, and the walk over a program: how many bare `continue`s a statement
has for the loop around it decides what making its code does to that loop.
-/

namespace EcmaLua

open Emission
open Lua (Stat Arm Tail)

mutual

/-- The bare `continue`s of a statement that belong to a loop around it. Those inside a loop, a
`try` statement or a function belong there, and what follows the end of a block is not looked
at. -/
def Stmt.bareContinues : Stmt → Nat
  | .continueStmt none _ => 1
  | .ifStmt _ cons alt => cons.bareContinues + Stmt.bareContinuesOpt alt
  | .switchStmt _ cases => SwitchCase.bareContinues cases
  | .withStmt _ body _ | .labeled _ body => body.bareContinues
  | .block body => Stmt.bareContinuesList body
  | _ => 0

def Stmt.bareContinuesList : List Stmt → Nat
  | [] => 0
  | s :: rest => s.bareContinues + if s.endsBlock then 0 else Stmt.bareContinuesList rest

def Stmt.bareContinuesOpt : Option Stmt → Nat
  | none => 0
  | some s => s.bareContinues

def SwitchCase.bareContinues : List SwitchCase → Nat
  | [] => 0
  | ⟨_, body⟩ :: rest => Stmt.bareContinuesList body + SwitchCase.bareContinues rest

end

/-- Programs in which no identifier or label is spelled in the given way. -/
def Rules.avoiding (name : String) : Rules where
  name identifier := Lua.spell identifier ≠ name
  kind _ := True
  place _ := True

/-- Programs whose constructs outside the subset have kinds of the vocabulary. -/
def Rules.noting (v : Lua.Vocabulary) : Rules where
  name _ := True
  kind := v.note
  place _ := True

namespace Emission

open Lua (Helper Vocabulary)

/-- Making the code has `n` bare `continue`s for the nearest loop, in every state. -/
def Codes (v : Vocabulary) (n : Nat) (free : String → Prop) (act : Emit (List Stat)) : Prop :=
  ∀ s, Lands v n free s (act s).2 (act s).1

section Kit

variable {α : Type} {P : α → Prop} {v : Vocabulary} {n m : Nat} {free free' : String → Prop}
  {act act' : Emit (List Stat)} {label : String} {labels : List String}

theorem Gives.codes (h : Gives (Quiet v) act) : Codes v 0 free act :=
  fun s => (h s).2.lands (h s).1

theorem Gives.then {x : Emit α} {f : α → Emit (List Stat)} (hx : Gives P x)
    (hf : ∀ a, P a → Codes v n free (f a)) : Codes v n free (x >>= f) := by
  intro s
  obtain ⟨hs, ha⟩ := hx s
  exact (hf _ ha _).after hs

theorem Codes.mono (h : Codes v n free act) (hf : ∀ name, free' name → free name) :
    Codes v n free' act :=
  fun s => (h s).mono hf

theorem Codes.append (h : Codes v n free act) (h' : Codes v m free' act') :
    Codes v (n + m) (fun name => free name ∧ free' name) (do
      let code ← act
      let rest ← act'
      pure (code ++ rest)) :=
  fun s => (h s).append (h' (act s).2)

theorem Codes.recode (h : Codes v n free act) {f : List Stat → List Stat}
    (hm : ∀ code, Stat.ownMarksList (f code) = Stat.ownMarksList code)
    (hs : ∀ code visible loop, Stat.SettledBlock v visible loop code →
      Stat.SettledBlock v visible loop (f code)) :
    Codes v n free (do pure (f (← act))) :=
  fun s => (h s).recode (hm _) (hs _)

theorem Codes.inFrame (h : Codes v n free act) (frame : Frame) :
    Codes v n free (inFrame frame act) := by
  intro s
  have hs := h { s with scope := frame :: s.scope }
  exact ⟨hs.grows, hs.touches, hs.jumps, hs.others, hs.settled⟩

theorem labeledCode_cons (label : String) (labels : List String) (act : Emit (List Stat)) :
    labeledCode (label :: labels) act = (do
      let (code, _) ← enclosed (.labeled label) (labeledCode labels act)
      pure [.doBlock (code ++ [.label (afterLabel label)])]) := rfl

theorem Codes.labeled (hv : Covers v) (h : Codes v n free act) (labels : List String) :
    Codes v n free (labeledCode labels act) := by
  induction labels with
  | nil => exact h
  | cons label rest ih =>
    rw [labeledCode_cons]
    exact fun s => (ih { s with control := .labeled label :: s.control }).labeledBlock hv

theorem labeled_map (f : List Stat → List Stat) (labels : List String)
    (act : Emit (List Stat)) :
    Emission.labeled labels (do pure (f (← act))) =
      (do pure (f (← Emission.labeled labels act))) := by
  induction labels with
  | nil => rfl
  | cons label rest ih =>
    rw [Emission.labeled, Emission.labeled, ih]
    rfl

theorem Codes.labeledReturn (hv : Covers v) (h : Codes v n free act) (labels : List String) :
    Codes v n free (labeledReturn labels act) := by
  cases labels with
  | nil => exact h
  | cons label rest =>
    have hblock : Codes v n free (do pure [.doBlock (← act)]) :=
      h.recode (fun _ => Stat.ownMarksList_singleton _) fun _ _ _ hs => ⟨hs, trivial⟩
    have heq : Emission.labeledReturn (label :: rest) act =
        labeledCode (label :: rest) (do pure [.doBlock (← act)]) := by
      rw [labeledCode, labeled_map fun code => [.doBlock code]]
      rfl
    rw [heq]
    exact hblock.labeled hv _

theorem ownMarksList_nested (labels : List String) (code : List Stat) :
    Stat.ownMarksList (nested labels code) = Stat.ownMarksList code ++
      labels.reverse.map fun label => Lua.Mark.label (afterLabel label) := by
  induction labels with
  | nil => simp [nested]
  | cons label rest ih =>
    have hblock : nested (label :: rest) code =
        [.doBlock (nested rest code ++ [.label (afterLabel label)])] := rfl
    rw [hblock, Stat.ownMarksList_singleton, Stat.ownMarks,
      Stat.ownMarksList_append, ih, Stat.ownMarksList_singleton, Stat.ownMarks]
    simp

theorem settledBlock_nested (hv : Covers v) {visible : List String} {loop : Bool}
    {code : List Stat}
    (h : Stat.SettledBlock v ((labels.map afterLabel).reverse ++ visible) loop code) :
    Stat.SettledBlock v visible loop (nested labels code) := by
  induction labels generalizing visible with
  | nil => exact h
  | cons label rest ih =>
    refine ⟨Stat.settledBlock_append.mpr ⟨ih ?_, hv.after label, trivial⟩, trivial⟩
    simpa [Stat.labels] using h

/-- The loop around a body, in blocks with the labels behind the loop. -/
theorem Loops.nested (hv : Covers v) {s s' : State} {body code : List Stat}
    (h : Loops v free labels s s' body)
    (hm : Stat.ownMarksList code = Stat.ownMarksList body)
    (hs : ∀ visible loop, Stat.SettledBlock v visible true body →
      Stat.SettledBlock v visible loop code) :
    Lands v 0 free s s' (nested labels code) := by
  refine ⟨h.steady.2, Or.inl ⟨h.steady.1, fun _ => rfl⟩, fun _ _ => Nat.zero_le _,
    fun k hk hfree => ?_, fun visible hvisible => settledBlock_nested hv (hs _ _ ?_)⟩
  · have hrange : k ≤ s.supply.last ∨ s'.supply.last < k := by
      rcases hk with hk | hk | ⟨hnone, hsome⟩
      · exact Or.inl hk
      · exact Or.inr hk
      · rw [h.steady.1, hnone] at hsome
        exact absurd hsome (by simp)
    obtain ⟨hcount, hlabel⟩ := h.others k hrange hfree
    rw [ownMarksList_nested, hm, count_append_afterLabels, hcount, ite_self]
    exact ⟨rfl, not_mem_append_afterLabels hlabel _⟩
  · refine h.settled _ (fun x hx => ?_) fun label hlabel => ?_
    · obtain ⟨hmem, hname⟩ := hvisible x hx
      exact ⟨List.mem_append_right _ hmem, hname⟩
    · refine List.mem_append_left _ ?_
      rw [List.mem_reverse]
      exact List.mem_map_of_mem hlabel

theorem Loops.after {s s' s'' : State} {body : List Stat}
    (h : Loops v free labels s' s'' body) (hs : Steady s s') :
    Loops v free labels s s'' body :=
  ⟨hs.trans h.steady, fun k hk => h.others k (hk.imp (fun hle => Nat.le_trans hle hs.2) id),
    h.settled⟩

theorem Loops.before {s s' s'' : State} {body : List Stat}
    (h : Loops v free labels s s' body) (hs : Steady s' s'') :
    Loops v free labels s s'' body := by
  refine ⟨h.steady.trans hs, fun k hk => h.others k (hk.imp id fun hlt =>
    Nat.lt_of_le_of_lt hs.2 hlt), ?_⟩
  rw [hs.1]
  exact h.settled

/-- A loop with code in front of it, at the start of its body and at its end. -/
theorem Loops.forLoop (hv : Covers v) {s s' : State} {body start step : List Stat}
    {c : Lua.Expr} (h : Loops v free labels s s' body)
    (hl : ∀ code, Amid body code → v.loop code) (hstart : Quiet v start) (hc : c.Settled v)
    (hstep : Quiet v step) :
    Lands v 0 free s s' (Emission.nested labels (start ++ [.whileLoop c (body ++ step)])) := by
  refine h.nested hv ?_ fun visible loop hb => ?_
  · rw [Stat.ownMarksList_append, hstart.1, List.nil_append, Stat.ownMarksList_singleton,
      Stat.ownMarks, Stat.ownMarksList_append, hstep.1, List.append_nil]
  · refine hstart.settled_append ⟨⟨hc, Stat.settledBlock_append.mpr ⟨?_, hstep.2 _ _⟩,
      hl _ ⟨[], step, rfl, rfl, hstep.1⟩⟩, trivial⟩
    rw [Stat.labels_eq_nil hstep.1]
    exact hb

/-- A loop over keys, each stored at the start of the body. -/
theorem Loops.keyLoop (hv : Covers v) {s s' : State} {body store : List Stat}
    {key ignored : String} {iterator : Lua.Expr} (h : Loops v free labels s s' body)
    (hl : ∀ code, Amid body code → v.loop code) (hk : v.name key) (hi : v.name ignored)
    (hc : iterator.Settled v) (hstore : Quiet v store) :
    Lands v 0 free s s'
      (Emission.nested labels [.forIn key ignored iterator (store ++ body)]) := by
  refine h.nested hv ?_ fun visible loop hb => ⟨⟨hk, hi, hc, hstore.settled_append hb,
    hl _ ⟨store, [], (List.append_nil _).symm, hstore.1, rfl⟩⟩, trivial⟩
  rw [Stat.ownMarksList_singleton, Stat.ownMarks, Stat.ownMarksList_append, hstore.1,
    List.nil_append]

/-- The labels behind the body of a loop, from what became of the loop. -/
theorem loopBody_eq {body : Emit (List Stat)} {s : State} {landing : Option String}
    {rest : Control}
    (h : (body { s with control := .loop labels none :: s.control }).2.control =
      .loop labels landing :: rest) :
    (loopBody labels body s).1 =
      .doBlock (body { s with control := .loop labels none :: s.control }).1 ::
        (labels.map Lua.spell ++ landing.toList).map .label := by
  have hinner : (enclosed (.loop labels none) body s).1 =
      ((body { s with control := .loop labels none :: s.control }).1, .loop labels landing) :=
    Prod.ext rfl (congrArg (fun control => control.headD (.loop labels none)) h)
  rw [loopBody, bind_eq hinner]
  change _ ++ _ = _
  cases landing <;> simp

theorem loops_loopBody (hv : Covers v) {body : Emit (List Stat)} (h : Codes v n free body)
    (labels : List String) (s : State) :
    Loops v (fun name => free name ∧ ∀ label ∈ labels, Lua.spell label ≠ name) labels s
      (loopBody labels body s).2 (loopBody labels body s).1 := by
  obtain ⟨landing, hcontrol, -, -, hloops⟩ :=
    (h { s with control := .loop labels none :: s.control }).looped hv
  rw [loopBody_eq hcontrol]
  exact hloops

end Kit

section Constructs

variable {v : Vocabulary} (hv : Covers v) {n : Nat} {free : String → Prop} {labels : List String}
  {test r : Rendition} {value literal : Emit Lua.Expr} {act body init update : Emit (List Stat)}
  {s : State}

theorem lands_goTo {name : String} (h : name ∈ s.control.targets)
    (hne : ∀ k, free (landingName k) → name ≠ landingName k) :
    Lands v 0 free s s [.goTo name] := by
  refine ⟨Nat.le_refl _, Or.inl ⟨rfl, fun _ => rfl⟩, fun _ _ => Nat.zero_le _,
    fun k _ hfree => ⟨?_, by simp [Stat.ownMarksList, Stat.ownMarks]⟩,
    fun visible hvisible => ⟨hvisible name h, trivial⟩⟩
  rw [ite_self, List.count_eq_zero]
  simpa [Stat.ownMarksList, Stat.ownMarks] using (hne k hfree).symm

theorem lands_leave (h : s.control.leaves = true) : Lands v 0 free s s [.breakLoop] := by
  refine ⟨Nat.le_refl _, Or.inl ⟨rfl, fun _ => rfl⟩, fun _ _ => Nat.zero_le _,
    fun k _ hfree => ⟨?_, by simp [Stat.ownMarksList, Stat.ownMarks]⟩,
    fun _ _ => ⟨h, trivial⟩⟩
  rw [ite_self, List.count_eq_zero]
  simp [Stat.ownMarksList, Stat.ownMarks]

/-- A bare `continue` for a loop whose landing is set when it is done. -/
theorem lands_landing {s' : State} {name : String} (hg : s.supply.last ≤ s'.supply.last)
    (ht : Touches 1 s s') (h : s'.control.landing = some (some name)) :
    Lands v 1 free s s' [.goTo name] := by
  have hmarks : Stat.ownMarksList [.goTo name] = [.goTo name] := rfl
  refine ⟨hg, ht, fun other hother => ?_, fun k _ _ => ?_, fun visible hvisible =>
    ⟨hvisible name (Control.mem_targets_of_landing h), trivial⟩⟩
  · obtain rfl : name = other := by simpa [h] using hother
    exact Nat.le_of_eq (by rw [hmarks, List.count_singleton_self])
  · rw [hmarks, h, List.count_singleton]
    simp

include hv

omit hv in
/-- The code of a jump; one that has no spelling leaves a comment. -/
theorem lands_jumpCode {note : String} (hn : v.note note) (blocked missing : Finding) {jump : Jump}
    (hj : jump = .leave ∧ s.control.leaves = true ∨
      (∃ name, jump = .goTo name ∧ name ∈ s.control.targets ∧
        ∀ k, free (landingName k) → name ≠ landingName k) ∨
      jump = .blocked ∨ jump = .missing) :
    Lands v 0 free s (jumpCode note blocked missing jump s).2
      (jumpCode note blocked missing jump s).1 := by
  rcases hj with ⟨rfl, hl⟩ | ⟨name, rfl, ht, hne⟩ | rfl | rfl
  · exact lands_leave hl
  · exact lands_goTo ht hne
  · exact (quiet_note hn).lands ⟨rfl, Nat.le_refl _⟩
  · exact (quiet_note hn).lands ⟨rfl, Nat.le_refl _⟩

theorem codes_breakCode (label : Option String) (span : Span) :
    Codes v 0 free (breakCode label span) := by
  intro s
  rw [breakCode_eq]
  refine lands_jumpCode (hv.note _ (by decide)) _ _ ?_
  rcases Control.breakJump_cases label s.control with h | ⟨l, -, h, ht⟩ | h
  · exact Or.inl h
  · exact Or.inr (Or.inl ⟨_, h, ht, fun k _ => afterLabel_ne_landingName l k⟩)
  · exact Or.inr (Or.inr h)

theorem codes_continueLabeled (label : String) (span : Span) :
    Codes v 0 (fun name => Lua.spell label ≠ name) (continueCode (some label) span) := by
  intro s
  obtain ⟨jump, heq, hj⟩ := Control.continueJump_labeled label s.supply s.control
  rw [continueCode_eq, heq]
  refine lands_jumpCode (s := s) (hv.note _ (by decide)) _ _ ?_
  rcases hj with h | h | ⟨h, ht⟩
  · exact Or.inr (Or.inr (Or.inl h))
  · exact Or.inr (Or.inr (Or.inr h))
  · exact Or.inr (Or.inl ⟨_, h, ht, fun k hfree => hfree⟩)

/-- A bare `continue` goes to the landing of the nearest loop, and sets it if need be. -/
theorem codes_continueBare (span : Span) : Codes v 1 free (continueCode none span) := by
  intro s
  rw [continueCode_eq]
  cases hl : s.control.landing with
  | none =>
    obtain ⟨jump, hj, heq⟩ := Control.continueJump_outside hl s.supply
    rw [heq]
    have hnote : Quiet v [.note "ContinueStatement"] := quiet_note (hv.note _ (by decide))
    have hquiet {s' : State} (hc : s'.control = s.control)
        (hs : s'.supply = s.supply) : Lands v 1 free s s' [.note "ContinueStatement"] := by
      refine ⟨Nat.le_of_eq (by rw [hs]), Or.inl ⟨hc, fun h => ?_⟩, fun name h => ?_,
        fun k _ _ => ?_, fun visible _ => hnote.2 visible _⟩
      · rw [hl] at h
        exact absurd h (by simp)
      · rw [hc, hl] at h
        exact absurd h (by simp)
      · rw [hc, hl, hnote.1]
        simp
    rcases hj with rfl | rfl
    · exact hquiet rfl rfl
    · exact hquiet rfl rfl
  | some landing =>
    cases landing with
    | some name =>
      rw [Control.continueJump_landed hl]
      refine lands_landing (Nat.le_refl _) (Or.inl ⟨rfl, fun h => ?_⟩) hl
      rw [hl] at h
      exact absurd h (by simp)
    | none =>
      rw [Control.continueJump_unlanded hl]
      refine lands_landing (Nat.le_succ _) (Or.inr ⟨hl, Nat.one_pos, s.supply.last + 1,
        Nat.lt_succ_self _, Nat.le_refl _, rfl⟩) ?_
      exact Control.landing_land (by rw [hl]; simp) _

/-- What is asked of a name so that it does not meet the labels of a loop. -/
abbrev Apart (free : String → Prop) (labels : List String) (name : String) : Prop :=
  free name ∧ ∀ label ∈ labels, Lua.spell label ≠ name

/-- The vocabulary has the loops with the body. -/
abbrev Runs (v : Vocabulary) (body : Emit (List Stat)) : Prop :=
  ∀ labels s code, Amid (loopBody labels body s).1 code → v.loop code

theorem codes_whileCode (ht : test.Calm v) (hl : Runs v body) (hb : Codes v n free body)
    (labels : List String) : Codes v 0 (Apart free labels) (do
      pure (nested labels (← whileCode labels test body))) := by
  intro s
  obtain ⟨hs, hc⟩ := hv.law.condition ht s
  have hloop := (loops_loopBody hv hb labels (condition test s).2).after hs
  exact hloop.nested hv (Stat.ownMarksList_singleton _) fun _ _ h =>
    ⟨⟨hc, h, hl _ _ _ (.refl _)⟩, trivial⟩

theorem codes_doWhileCode (ht : test.Calm v) (hl : Runs v body) (hb : Codes v n free body)
    (labels : List String) : Codes v 0 (Apart free labels) (do
      pure (nested labels (← doWhileCode labels body test))) := by
  intro s
  obtain ⟨hs, hc⟩ := hv.law.condition ht (loopBody labels body s).2
  have hloop := (loops_loopBody hv hb labels s).before hs
  exact hloop.nested hv (Stat.ownMarksList_singleton _) fun _ _ h =>
    ⟨⟨h, hc, .inr (hl _ _ _ (.refl _))⟩, trivial⟩

theorem codes_forCode (hi : Gives (Quiet v) init) {tests : Option Rendition}
    (ht : ∀ t ∈ tests, t.Calm v) (hu : Gives (Quiet v) update) (hl : Runs v body)
    (hb : Codes v n free body) (labels : List String) :
    Codes v 0 (Apart free labels) (do
      pure (nested labels (← forCode labels init tests update body))) := by
  intro s
  rw [forCode_eq]
  obtain ⟨hs₁, hstart⟩ := hi s
  obtain ⟨hs₂, hc⟩ := hv.law.conditionOpt ht (init s).2
  have hloop := loops_loopBody hv hb labels (conditionOpt tests (init s).2).2
  obtain ⟨hs₃, hstep⟩ := hu (loopBody labels body (conditionOpt tests (init s).2).2).2
  exact ((hloop.after (hs₁.trans hs₂)).before hs₃).forLoop hv (hl _ _) hstart hc hstep

theorem codes_forInCode (ho : r.Calm v) {head : Emit (String × List Stat)}
    (hh : Gives (fun h => v.name h.1 ∧ Quiet v h.2) head) (hl : Runs v body)
    (hb : Codes v n free body) (labels : List String) :
    Codes v 0 (Apart free labels) (do
      pure (nested labels (← forInCode labels r head body))) := by
  intro s
  obtain ⟨hs₁, ho⟩ := ho.value s
  have hstem : "__tmp" ∈ stems := by decide
  obtain ⟨hs₂, hi⟩ := gives_fresh hv hstem (r.value s).2
  obtain ⟨hs₃, hk⟩ := hh (fresh "__tmp" (r.value s).2).2
  have hloop := loops_loopBody hv hb labels (head (fresh "__tmp" (r.value s).2).2).2
  exact (hloop.after ((hs₁.trans hs₂).trans hs₃)).keyLoop hv (hl _ _) hk.1 hi
    (settled_helper hv .iterate ⟨ho, trivial⟩) hk.2

theorem codes_switchCode (hd : r.Calm v)
    {arms : (value selected : String) → Emit (List Arm)}
    (ha : ∀ value selected, v.name value → v.name selected →
      Gives (Arm.SettledList v) (arms value selected))
    (default : Option Nat) {bodies : (selected : String) → Emit (List Stat)}
    (hb : ∀ selected, v.name selected → Codes v n free (bodies selected)) :
    Codes v n free (switchCode r arms default bodies) := by
  refine (gives_fresh hv (by decide)).then fun value hvalue => ?_
  refine (gives_fresh hv (by decide)).then fun selected hs => ?_
  refine hd.value.then fun d he => (ha value selected hvalue hs).then fun tests ht => ?_
  have hlocals := (hv.law.defineOne hvalue he).append (hv.law.defineOne hs (hv.law.int 0))
  have hfront := hlocals.append (hv.law.selection hs ht default)
  exact fun s => Lands.switchBlock hfront
    (hb selected hs { s with control := .switch :: s.control })

omit hv in
/-- Code in a Lua function that no jump can leave. -/
theorem gives_walled (h : Codes v n free act) :
    Gives (Stat.SettledBlock v [] false) (walled act) := by
  intro s
  have hin := h { s with control := .barrier :: s.control }
  have hcontrol : (act { s with control := .barrier :: s.control }).2.control =
      .barrier :: s.control := by
    rcases hin.touches with ⟨heq, -⟩ | ⟨hl, -⟩
    · exact heq
    · exact absurd hl (by simp [Control.landing])
  have hsettled := hin.settled []
  rw [hcontrol] at hsettled
  exact ⟨⟨by rw [show (walled act s).2.control = _ from congrArg List.tail hcontrol]; rfl,
    hin.grows⟩, hsettled (by simp [Control.targets])⟩

omit hv in
/-- Code in a function of the program. -/
theorem gives_detached (h : Codes v n free act) :
    Gives (Stat.SettledBlock v [] false) (detached act) := by
  intro s
  have hin := h { s with control := [] }
  have hcontrol : (act { s with control := [] }).2.control = [] := by
    rcases hin.touches with ⟨heq, -⟩ | ⟨hl, -⟩
    · exact heq
    · exact absurd hl (by simp [Control.landing])
  have hsettled := hin.settled []
  rw [hcontrol] at hsettled
  exact ⟨⟨rfl, hin.grows⟩, hsettled (by simp [Control.targets])⟩

theorem codes_withCode (span : Span) (ho : r.Calm v) (hb : Codes v n free body) :
    Codes v n free (withCode span r body) := by
  refine (gives_fresh hv (by decide)).then fun proxy hproxy => ho.value.then fun o he => ?_
  intro s
  have hin := hb { s with scope := .object "with" proxy :: s.scope, captured := [] :: s.captured }
  have hobject : (Helper.toObject.call [o]).Settled v :=
    settled_helper hv .toObject ⟨he, trivial⟩
  have hscoped := hin.recode
    (Stat.ownMarksList_singleton (.scoped proxy (Helper.toObject.call [o]) _)) fun _ _ h =>
      ⟨⟨hproxy, hobject, h⟩, trivial⟩
  exact ⟨hscoped.grows, hscoped.touches, hscoped.jumps, hscoped.others, hscoped.settled⟩

omit hv in
theorem codes_caseBody {selected : String} (hs : v.name selected) (k : Nat)
    (h : Codes v n free act) : Codes v n free (do pure [caseBody selected k (← act)]) := by
  refine h.recode (fun stats => ?_) fun _ _ _ hc =>
    ⟨⟨⟨⟨hs, trivial⟩, hs, trivial⟩, hc, trivial⟩, trivial⟩
  rw [Stat.ownMarksList_singleton, caseBody, Stat.ownMarks]
  exact List.append_nil _

omit hv in
theorem codes_unsupportedCode {node : Unsupported} (h : v.note node.kind) :
    Codes v 0 free (unsupportedCode node) :=
  Gives.codes ((gives_report _).bind fun _ _ => .pure (quiet_note h))

/-- Making what follows a branch has `n` bare `continue`s for the nearest loop, in every state. -/
def Alters (v : Vocabulary) (n : Nat) (free : String → Prop) (act : Emit Tail) : Prop :=
  ∀ s, Lands v n free s (act s).2 [.ifThen .nil [] (act s).1]

omit hv in
/-- A branch, and what follows it. -/
theorem Lands.branch {m : Nat} {free' : String → Prop} {s' s'' : State} {code : List Stat}
    {tail : Tail} {stat : Stat} (h : Lands v n free s s' code)
    (ht : Lands v m free' s' s'' [.ifThen .nil [] tail])
    (hm : stat.ownMarks = Stat.ownMarksList code ++ tail.ownMarks)
    (hs : ∀ visible loop, Stat.SettledBlock v visible loop code →
      tail.Settled v visible loop → stat.Settled v visible loop) :
    Lands v (n + m) (fun name => free name ∧ free' name) s s'' [stat] := by
  refine (h.append ht).recode ?_ fun visible loop hall => ⟨?_, trivial⟩
  · rw [Stat.ownMarksList_singleton, hm, Stat.ownMarksList_append,
      Stat.ownMarksList_singleton]
    rfl
  · obtain ⟨hcode, htail, -⟩ := Stat.settledBlock_append.mp hall
    exact hs visible loop hcode htail.2.2

theorem codes_branch (hc : test.Calm v) (hb : Codes v n free body) {m : Nat}
    {free' : String → Prop} {tail : Emit Tail} (ht : Alters v m free' tail) :
    Codes v (n + m) (fun name => free name ∧ free' name) (do
      let c ← condition test
      let code ← body
      pure [.ifThen c code (← tail)]) := by
  refine (hv.law.condition hc).then fun c hsettled s => ?_
  exact (hb s).branch (ht (body s).2) rfl fun _ _ h₁ h₂ => ⟨hsettled, h₁, h₂⟩

theorem alters_elseif (hc : test.Calm v) (hb : Codes v n free body) {m : Nat}
    {free' : String → Prop} {tail : Emit Tail} (ht : Alters v m free' tail) :
    Alters v (n + m) (fun name => free name ∧ free' name) (do
      let c ← condition test
      let code ← body
      pure (.elseif c code (← tail))) := by
  intro s₀
  obtain ⟨hs, hsettled⟩ := hv.law.condition hc s₀
  have hbranch (s : State) : Lands v (n + m) (fun name => free name ∧ free' name) s
      (tail (body s).2).2
      [.ifThen .nil [] (.elseif (condition test s₀).1 (body s).1 (tail (body s).2).1)] :=
    (hb s).branch (ht (body s).2) rfl fun _ _ h₁ h₂ => ⟨trivial, trivial, hsettled, h₁, h₂⟩
  exact (hbranch (condition test s₀).2).after hs

omit hv in
theorem alters_otherwise (hb : Codes v n free body) :
    Alters v n free (do pure (.otherwise (← body))) :=
  fun s => (hb s).recode (Stat.ownMarksList_singleton _) fun _ _ h =>
    ⟨⟨trivial, trivial, h⟩, trivial⟩

omit hv in
theorem alters_none : Alters v 0 free (pure .none) :=
  fun s => (quiet_ifThen (v := v) (c := .nil) trivial .nil).lands (.refl s)

theorem quiet_unpacked (params : List String) :
    Quiet v (if (params.map Lua.spell).isEmpty then []
      else [.define (params.map Lua.spell) .vararg]) := by
  split
  · exact .nil
  · refine .one rfl fun _ _ => ⟨fun p hp => ?_, trivial⟩
    obtain ⟨q, -, rfl⟩ := List.mem_map.mp hp
    exact hv.spell q

theorem gives_functionCode (params : List String) (names : Declarations)
    (hb : Codes v n free body) :
    Gives (Lua.Expr.Settled v) (functionCode params names body) := by
  have hself := hv.fixed "self" (by decide)
  have harguments := hv.fixed "arguments" (by decide)
  have hcode : Codes v n free (do
      let locals ← declareLocals names.funcs
      pure (locals ++ (← body))) := by
    refine (gives_declareLocals hv names.funcs).then fun locals hl => ?_
    exact hb.recode (fun code => by rw [Stat.ownMarksList_append, hl.1, List.nil_append])
      fun _ _ _ h => hl.settled_append h
  refine (gives_detached (((gives_declareNew _).then fun _ _ => hcode).inFrame _)).bind
    fun code hc => .pure ?_
  refine settled_helper hv .defineFunction ⟨?_, trivial⟩
  split
  · have hpack : Quiet v [.define ["arguments"]
        (.call (.field (.name "table") "pack") [.vararg])] :=
      hv.law.defineOne harguments ⟨hv.fixed "table" (by decide), trivial, trivial⟩
    have hlength : Quiet v [.assign (.field (.name "arguments") "__Length")
        (.field (.name "arguments") "n")] := .one rfl fun _ _ => ⟨harguments, harguments⟩
    refine ⟨by simpa using hself, ?_⟩
    exact ((quiet_unpacked hv params).append (hpack.append hlength)).settled_append hc
  · refine ⟨List.forall_mem_cons.mpr ⟨hself, fun p hp => ?_⟩, hc⟩
    obtain ⟨q, -, rfl⟩ := List.mem_map.mp hp
    exact hv.spell q

end Constructs

end Emission

end EcmaLua
