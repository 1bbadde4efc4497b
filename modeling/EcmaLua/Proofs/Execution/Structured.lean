import EcmaLua.Proofs.Execution.Constructs

/-!
# Structured programs

The walk over a legal statement: its code runs as the statement does, whatever the conditions are
worth and wherever the bound lies. At the outermost place nothing is left to jump to, so that a
program falls through, returns or runs on as its code does.
-/

namespace EcmaLua

open Emission Execution
open Lua (Stat)

section Branches

variable {bound n m : Nat} {scope : JumpScope} {body : Emit (List Stat)} {tail : Emit Lua.Tail}
  {run other : Run Evaluation Completion}
  {landing : Option (Option String)} {code : List Stat} {c : Lua.Expr}
  {test : Run Evaluation Bool} {rest : Lua.Tail}

/-- What follows a branch runs as told. -/
def SimulatesTail (bound : Nat) (scope : JumpScope) (tail : Emit Lua.Tail)
    (run : Run Evaluation Completion) : Prop :=
  ∀ s, Serves scope [] s.control →
    Matches Evaluation.Renders (Ends scope (tail s).2.control.landing) run ((tail s).1.run bound)

theorem matches_branch (htest : Matches Evaluation.Renders Eq test c.truth)
    (hcode : Stat.labels code = [])
    (hrun : Matches Evaluation.Renders (Ends scope landing) run (Stat.walk bound code none))
    (hrest : Matches Evaluation.Renders (Ends scope landing) other (rest.run bound)) :
    Matches Evaluation.Renders (Ends scope landing) (do if ← test then run else other)
      (do if ← c.truth then Stat.runBlock bound code else rest.run bound) := by
  rw [Stat.runBlock_eq_walk hcode]
  refine htest.bind fun passed passed' heq => ?_
  subst heq
  cases passed with
  | true => exact hrun
  | false => exact hrest

/-- A condition, a branch and what follows it, made one after the other. -/
theorem Simulates.branch (h : Simulates bound scope [] body run) (hc : Sets n body)
    (ht : SimulatesTail bound scope tail other) (ha : Sets m tail) (test : Expr) {s : State}
    (hs : Serves scope [] s.control) :
    Matches Evaluation.Renders
      (Ends scope (tail (body (condition test.emit s).2).2).2.control.landing)
      (do if ← ask (.test test) then run else other)
      (do
        if ← (condition test.emit s).1.truth then
          Stat.runBlock bound (body (condition test.emit s).2).1
        else (tail (body (condition test.emit s).2).2).1.run bound) := by
  have hs' : Serves scope [] (condition test.emit s).2.control :=
    (steady_condition test s).1 ▸ hs
  obtain ⟨hlabels, hrun⟩ := h _ hs'
  have hs'' := hs'.touches (hc _)
  have hlands := ha (body (condition test.emit s).2).2
  exact matches_branch (matches_condition test s) hlabels
    (hrun.mono fun _ _ hends => hends.mono fun _ => hlands.landed) (ht _ hs'')

theorem Simulates.conditional (h : Simulates bound scope [] body run) (hc : Sets n body)
    (ht : SimulatesTail bound scope tail other) (ha : Sets m tail) (test : Expr) :
    Simulates bound scope []
      (do
        let c ← condition test.emit
        let code ← body
        pure [.ifThen c code (← tail)])
      (do if ← ask (.test test) then run else other) := by
  intro s hs
  refine ⟨rfl, ?_⟩
  exact (congrArg _ (Stat.walk_singleton bound _)).mpr (h.branch hc ht ha test hs)

theorem SimulatesTail.elseif (h : Simulates bound scope [] body run) (hc : Sets n body)
    (ht : SimulatesTail bound scope tail other) (ha : Sets m tail) (test : Expr) :
    SimulatesTail bound scope
      (do
        let c ← condition test.emit
        let code ← body
        pure (.elseif c code (← tail)))
      (do if ← ask (.test test) then run else other) :=
  fun _ hs => h.branch hc ht ha test hs

theorem SimulatesTail.otherwise (h : Simulates bound scope [] body run) :
    SimulatesTail bound scope (do pure (.otherwise (← body))) run := by
  intro s hs
  obtain ⟨hlabels, hrun⟩ := h s hs
  exact (congrArg _ (Stat.runBlock_eq_walk hlabels bound)).mpr hrun

end Branches

section Jumps

variable {bound : Nat} {scope : JumpScope}

theorem matches_jump {c : Completion} {e : Lua.Ending} {stat : Stat}
    {landing : Option (Option String)} (hstat : stat.run bound = pure e)
    (h : Ends scope landing c e) :
    Matches Evaluation.Renders (Ends scope landing) (pure c) (Stat.walk bound [stat] none) := by
  rw [Stat.walk_singleton, hstat]
  exact .pure h

theorem simulates_breakCode (span : Span) (h : scope.inLoop = true) :
    Simulates bound scope [] (breakCode none span) (pure (.brk none)) := by
  intro s hs
  rw [breakCode_eq, (hs.leaves h).1]
  exact ⟨rfl, matches_jump rfl (.leave h)⟩

theorem simulates_breakLabeled {label : String} (span : Span) (h : label ∈ scope.labels) :
    Simulates bound scope [] (breakCode (some label) span) (pure (.brk (some label))) := by
  intro s hs
  rw [breakCode_eq, (hs.breaks label h).resolve_left List.not_mem_nil]
  exact ⟨rfl, matches_jump rfl (.after h)⟩

theorem simulates_continueLabeled {label : String} (span : Span) (h : label ∈ scope.loops) :
    Simulates bound scope [] (continueCode (some label) span) (pure (.cont (some label))) := by
  intro s hs
  rw [continueCode_eq, hs.continues label h]
  exact ⟨rfl, matches_jump rfl (.label h)⟩

/-- A bare `continue` goes to the landing that the loop has then. -/
theorem simulates_continueBare (span : Span) (h : scope.inLoop = true) :
    Simulates bound scope [] (continueCode none span) (pure (.cont none)) := by
  intro s hs
  have hloop := (hs.leaves h).2
  rw [continueCode_eq]
  cases hl : s.control.landing with
  | none => exact absurd hl hloop
  | some inner =>
    cases inner with
    | some name =>
      obtain ⟨k, rfl⟩ := hs.landed name hl
      rw [Control.continueJump_landed hl]
      exact ⟨rfl, matches_jump rfl (.land hl)⟩
    | none =>
      rw [Control.continueJump_unlanded hl]
      exact ⟨rfl, matches_jump rfl (.land (Control.landing_land hloop _))⟩

end Jumps

section Plain

variable {bound n : Nat} {scope : JumpScope} {act : Emit (List Stat)}
  {run : Run Evaluation Completion}

theorem sets_pure {α : Type} (a : α) : Sets 0 (pure a : Emit α) :=
  fun _ => Or.inl ⟨rfl, fun _ => rfl⟩

theorem Simulates.unlabeled
    (h : Simulates bound scope [] act (do pure ((← run).absorb []))) :
    Simulates bound scope [] act run := by
  rwa [Completion.bind_absorb_nil] at h

theorem simulates_nothing : Simulates bound scope [] (pure []) (pure .normal) :=
  fun _ _ => ⟨rfl, .pure .normal⟩

theorem simulates_effect (e : Expr) :
    Simulates bound scope [] e.emit.effect (do
      perform [.effect e]
      pure .normal) :=
  fun s _ => ⟨(e.straight_effect s).labels, matches_effect e s⟩

theorem simulates_returned (arg : Option Expr) :
    Simulates bound scope [] (returned ((Expr.emitOpt arg).map Rendition.value))
      (pure (.ret arg)) := by
  intro s _
  cases arg with
  | none => exact ⟨rfl, matches_jump rfl .nothing⟩
  | some e => exact ⟨rfl, matches_jump rfl (.result e s)⟩

/-- A block of its own changes nothing. -/
theorem Simulates.block (h : Simulates bound scope [] act run) :
    Simulates bound scope [] (do pure [.doBlock (← act)]) run := by
  intro s hs
  obtain ⟨hlabels, hrun⟩ := h s hs
  refine ⟨rfl, ?_⟩
  have hwalk : Stat.walk bound [.doBlock (act s).1] none = Stat.walk bound (act s).1 none :=
    (Stat.walk_singleton bound _).trans (Stat.runBlock_eq_walk hlabels bound)
  exact (congrArg (Matches _ _ run) hwalk).mpr hrun

theorem Simulates.labeledReturn (h : Simulates bound scope [] act run) (hc : Sets n act)
    (labels : List String) :
    Simulates bound scope labels (Emission.labeledReturn labels act)
      (do pure ((← run).absorb labels)) := by
  cases labels with
  | nil => exact h.labeledCode hc []
  | cons label rest =>
    have heq : Emission.labeledReturn (label :: rest) act =
        Emission.labeledCode (label :: rest) (do pure [.doBlock (← act)]) := by
      rw [Emission.labeledCode, labeled_map fun code => [.doBlock code]]
      rfl
    rw [heq]
    exact h.block.labeledCode (n := n) hc _

end Plain

theorem Stmt.run_endsBlock {bound : Nat} {s : Stmt} (h : s.endsBlock = true)
    (rest : Run Evaluation Completion) :
    (do (← s.run bound []).next rest) = s.run bound [] := by
  unfold Stmt.endsBlock at h
  split at h
  · rfl
  · rfl
  · exact absurd h (by simp)

section Walk

theorem Expr.sets_effect (e : Expr) : Sets 0 e.emit.effect := e.calm_all.effect.sets

theorem Stmt.sets_emit (place : Place) (s : Stmt) : Sets s.bareContinues (s.emit place) :=
  (s.codes_all place).sets

theorem Stmt.sets_emitList (body : List Stmt) :
    Sets (Stmt.bareContinuesList body) (Stmt.emitList body) :=
  (Stmt.codesList_all body).sets

theorem Stmt.sets_emitElse (alt : Option Stmt) :
    Sets (Stmt.bareContinuesOpt alt) (Stmt.emitElse alt) :=
  fun s => (Stmt.alters_all alt s).touches

variable (bound : Nat)

mutual

/-- The code of a legal statement runs as the statement does. -/
theorem Stmt.simulates_emit (scope : JumpScope) (place : Place) : (s : Stmt) →
    s.Legal scope place.labels →
    Simulates bound scope place.labels (s.emit place)
      (do pure ((← s.run bound place.labels).absorb place.labels))
  | .empty, _ => simulates_nothing.labeledCode (sets_pure []) _
  | .exprStmt e, _ => (simulates_effect e).labeledCode (Expr.sets_effect e) _
  | .returnStmt arg, _ =>
    (simulates_returned arg).labeledReturn (Stmt.sets_emit (.statement []) (.returnStmt arg)) _
  | .breakStmt none span, h =>
    (simulates_breakCode span h).labeledCode
      (Stmt.sets_emit (.statement []) (.breakStmt none span)) _
  | .breakStmt (some label) span, h =>
    (simulates_breakLabeled span h).labeledCode
      (Stmt.sets_emit (.statement []) (.breakStmt (some label) span)) _
  | .continueStmt none span, h =>
    (simulates_continueBare span h).labeledCode
      (Stmt.sets_emit (.statement []) (.continueStmt none span)) _
  | .continueStmt (some label) span, h =>
    (simulates_continueLabeled span h).labeledCode
      (Stmt.sets_emit (.statement []) (.continueStmt (some label) span)) _
  | .ifStmt test cons alt, h => by
    have hcons := (Stmt.simulates_emit scope .body cons h.1).unlabeled
    have halt := Stmt.simulates_emitElse scope alt h.2
    exact (hcons.conditional (Stmt.sets_emit .body cons) halt (Stmt.sets_emitElse alt)
      test).labeledCode (Stmt.sets_emit (.statement []) (.ifStmt test cons alt)) _
  | .whileStmt test body, h =>
    ((Stmt.simulates_emit (scope.looping place.labels) .body body h).unlabeled.whileCode
      (body.codes_all .body) test).nested
  | .doWhileStmt body test, h =>
    ((Stmt.simulates_emit (scope.looping place.labels) .body body h).unlabeled.doWhileCode
      (body.codes_all .body) test).nested
  | .forStmt .none test update body, h =>
    ((Stmt.simulates_emit (scope.looping place.labels) .body body h).unlabeled.forCode
      (body.codes_all .body) effects_nothing test
      (effects_emitOpt update)).nested
  | .forStmt (.expr e) test update body, h =>
    ((Stmt.simulates_emit (scope.looping place.labels) .body body h).unlabeled.forCode
      (body.codes_all .body) (effects_emit e) test
      (effects_emitOpt update)).nested
  | .labeled label body, h =>
    (Stmt.simulates_emit (scope.labeling label) (.statement (place.labels ++ [label])) body
      h.2.2).labeling h.2.1
  | .block body, h => by
    have hbody := Stmt.simulates_emitList scope body h
    cases place with
    | body => exact hbody.labeledCode (Stmt.sets_emitList body) []
    | statement labels => exact hbody.block.labeledCode (Stmt.sets_emitList body) labels

theorem Stmt.simulates_emitList (scope : JumpScope) : (body : List Stmt) →
    Stmt.LegalList scope body →
    Simulates bound scope [] (Stmt.emitList body) (Stmt.runList bound body)
  | [], _ => simulates_nothing
  | s :: rest, h => by
    have hfirst := (Stmt.simulates_emit scope (.statement []) s h.1).unlabeled
    have hrest := Stmt.simulates_emitList scope rest h.2
    rw [Stmt.emitList, Stmt.runList]
    cases hends : s.endsBlock with
    | true =>
      rw [Stmt.run_endsBlock hends]
      exact hfirst
    | false =>
      exact hfirst.append (s.sets_emit _) hrest (Stmt.sets_emitList rest)

theorem Stmt.simulates_emitElse (scope : JumpScope) : (alt : Option Stmt) →
    Stmt.LegalOpt scope alt →
    SimulatesTail bound scope (Stmt.emitElse alt) (Stmt.runOpt bound alt)
  | none, _ => fun _ _ => .pure .normal
  | some (.ifStmt test cons alt), h =>
    .elseif (Stmt.simulates_emit scope .body cons h.1).unlabeled (Stmt.sets_emit .body cons)
      (Stmt.simulates_emitElse scope alt h.2) (Stmt.sets_emitElse alt) test
  | some .empty, h | some (.exprStmt _), h | some (.returnStmt _), h | some (.breakStmt _ _), h
  | some (.continueStmt _ _), h | some (.whileStmt _ _), h | some (.doWhileStmt _ _), h
  | some (.forStmt _ _ _ _), h | some (.labeled _ _), h | some (.block _), h =>
    .otherwise (Stmt.simulates_emit scope .body _ h).unlabeled

end

end Walk

/-- How code ends that has nothing to jump to: it falls through, returns what the statements
return, or has reached the bound, as they do. -/
inductive Concludes : Completion → Lua.Ending → Prop
  | normal : Concludes .normal .normal
  | nothing : Concludes (.ret none) (.ret .nil)
  | result (e : Expr) (s : State) : Concludes (.ret (some e)) (.ret (e.emit.value s).1)
  | unfinished : Concludes .unfinished .unfinished

theorem Ends.concludes {c : Completion} {e : Lua.Ending} (h : Ends .outermost none c e) :
    Concludes c e := by
  cases h with
  | normal => exact .normal
  | nothing => exact .nothing
  | result e s => exact .result e s
  | unfinished => exact .unfinished
  | leave h => exact absurd h Bool.false_ne_true
  | after h => exact absurd h List.not_mem_nil
  | label h => exact absurd h List.not_mem_nil
  | land h => exact absurd h nofun

/-- Whatever the conditions are worth and wherever the bound lies, the code evaluates what the
statements evaluate, in the same order, asks as often, and ends as they do. -/
def RunsAs (body : List Stmt) (code : List Stat) : Prop :=
  ∀ (bound : Nat) (answers : Nat → Bool),
    let source := Stmt.runList bound body ⟨[], answers⟩
    let target := Stat.runBlock bound code ⟨[], answers⟩
    Concludes source.1 target.1 ∧
      Rendered Evaluation.Renders source.2.events target.2.events ∧
      source.2.answers = target.2.answers

/-- Where no construct is open, all that can be jumped to is served. -/
theorem serves_outermost : Serves .outermost [] [] := ⟨nofun, nofun, nofun, nofun, nofun, nofun⟩

section Bodies

variable {body : List Stmt} (h : Stmt.LegalList .outermost body) {s : State} (hs : s.control = [])

include h hs

theorem labels_emitList : Stat.labels (Stmt.emitList body s).1 = [] := by
  exact (Stmt.simulates_emitList 0 .outermost body h s (hs ▸ serves_outermost)).1

theorem matches_emitList (bound : Nat) :
    Matches Evaluation.Renders Concludes (Stmt.runList bound body)
      (Stat.walk bound (Stmt.emitList body s).1 none) := by
  have hlanding : (Stmt.emitList body s).2.control.landing = none := by
    rw [(Stmt.sets_emitList body s).outermost hs]
    rfl
  have hrun := (Stmt.simulates_emitList bound .outermost body h s (hs ▸ serves_outermost)).2
  rw [hlanding] at hrun
  exact hrun.mono fun _ _ hends => hends.concludes

end Bodies

theorem RunsAs.of_matches {body : List Stmt} {code : List Stat}
    (h : ∀ bound, Matches Evaluation.Renders Concludes (Stmt.runList bound body)
      (Stat.runBlock bound code)) : RunsAs body code := by
  intro bound answers
  obtain ⟨hends, hagree⟩ := h bound ⟨[], answers⟩ ⟨[], answers⟩ ⟨⟨[], rfl, .nil⟩, rfl⟩
  exact ⟨hends, hagree.events, hagree.answers⟩

/-- A declaration of locals has no actions. -/
theorem silent_declareLocals (names : List String) (s : State) :
    Stat.Straight (declareLocals names s).1 ∧
      ∀ stat ∈ (declareLocals names s).1, stat.actions = [] := by
  have hcode : (declareLocals names s).1 =
      if (declareNew names s).1.isEmpty then []
      else [.declare ((declareNew names s).1.map Lua.spell)] := rfl
  rw [hcode]
  split
  · exact ⟨List.forall_mem_nil _, List.forall_mem_nil _⟩
  · exact ⟨List.forall_mem_singleton.mpr rfl, List.forall_mem_singleton.mpr rfl⟩

/-- The code of legal statements runs as they do: as a whole program, and as a body within which
nothing outside can be jumped to. -/
theorem Stmt.runsAs_emit {body : List Stmt} (h : Stmt.LegalList .outermost body) :
    RunsAs body (Program.emit ⟨body⟩).chunk.body ∧
      ∀ s : State, s.control = [] → RunsAs body (Stmt.emitList body s).1 := by
  constructor
  · let names := Declarations.ofBody body
    let start : State :=
      { scope := [rootFrame names, .object "program" Lua.globalObjects] }
    have hcode : (Program.emit ⟨body⟩).chunk.body =
        (.marker "BEGIN" :: (declareLocals names.funcs start).1) ++
          (Stmt.emitList body (declareLocals names.funcs start).2).1 ++ [.marker "END"] := rfl
    have hs : (declareLocals names.funcs start).2.control = [] :=
      (gives_declareLocals covers_all names.funcs start).1.1
    obtain ⟨hstraight, hsilent⟩ := silent_declareLocals names.funcs start
    have hfront : Lua.Stat.Straight (.marker "BEGIN" :: (declareLocals names.funcs start).1) :=
      List.forall_mem_cons.mpr ⟨rfl, hstraight⟩
    have hend : Lua.Stat.Straight [.marker "END"] := List.forall_mem_singleton.mpr rfl
    have hlabels : Lua.Stat.labels (Program.emit ⟨body⟩).chunk.body = [] := by
      rw [hcode, Lua.Stat.labels_append, Lua.Stat.labels_append, labels_emitList h hs,
        hfront.labels, hend.labels]
      rfl
    refine .of_matches fun bound => ?_
    rw [Lua.Stat.runBlock_eq_walk hlabels, hcode,
      Lua.Stat.walk_between hfront (List.forall_mem_cons.mpr ⟨rfl, hsilent⟩) hend
        (List.forall_mem_singleton.mpr rfl)]
    exact matches_emitList h hs bound
  · intro s hs
    refine .of_matches fun bound => ?_
    rw [Lua.Stat.runBlock_eq_walk (labels_emitList h hs)]
    exact matches_emitList h hs bound

/-- Labeled loops in each other, and jumps of each kind. -/
def labeledLoops : List Stmt := [
  .labeled "outer" (.labeled "again" (.whileStmt (.ident "a") (.block [
    .labeled "inner" (.doWhileStmt (.block [
      .ifStmt (.ident "b") (.continueStmt (some "outer") .nowhere)
        (some (.ifStmt (.ident "c") (.breakStmt (some "inner") .nowhere) none)),
      .ifStmt (.ident "d") (.continueStmt none .nowhere) none,
      .exprStmt (.ident "e")]) (.ident "f")),
    .forStmt (.expr (.ident "g")) none (some (.ident "h")) (.block [
      .ifStmt (.ident "i") (.breakStmt none .nowhere) none,
      .labeled "here" (.block [.breakStmt (some "here") .nowhere, .empty]),
      .breakStmt (some "again") .nowhere])]))),
  .returnStmt (some (.ident "j"))]

theorem runsAs_labeledLoops :
    Stmt.LegalList .outermost labeledLoops ∧
      RunsAs labeledLoops (Program.emit ⟨labeledLoops⟩).chunk.body ∧
      ∀ s : State, s.control = [] → RunsAs labeledLoops (Stmt.emitList labeledLoops s).1 := by
  have h : Stmt.LegalList .outermost labeledLoops := by
    simp only [labeledLoops, Stmt.LegalList, Stmt.Legal, Stmt.LegalOpt, JumpScope.outermost,
      JumpScope.looping, JumpScope.labeling]
    decide
  exact ⟨h, Stmt.runsAs_emit h⟩

end EcmaLua
