import EcmaLua.Proofs.Execution.Simulation

/-!
# Constructs run as their parts do

What the blocks around labeled code, the rounds of a loop and the branches of a conditional make of
the ways in which their parts end. A jump arrives at the first label that it meets under its name;
labels that differ are spelled differently, so that it meets no other one.
-/

namespace EcmaLua

open Emission Execution
open Lua (Stat Ending)

namespace Completion

theorem absorb_nil (c : Completion) : c.absorb [] = c := by
  cases c with
  | brk label => cases label <;> rfl
  | normal | cont _ | ret _ | unfinished => rfl

theorem absorb_append (outer inner : List String) (c : Completion) :
    c.absorb (outer ++ inner) = (c.absorb inner).absorb outer := by
  cases c with
  | brk label =>
    cases label with
    | none => rfl
    | some label => by_cases h : label ∈ inner <;> simp [absorb, h]
  | normal | cont _ | ret _ | unfinished => rfl

/-- Without labels there is nothing to absorb. -/
theorem bind_absorb_nil (run : Run Evaluation Completion) :
    (do pure ((← run).absorb [])) = run := by
  simp only [absorb_nil, bind_pure]

/-- A `break` with one of the labels does not get out. -/
theorem absorb_ne_brk {labels : List String} {label : String} (h : label ∈ labels)
    (c : Completion) : c.absorb labels ≠ .brk (some label) := by
  intro hc
  cases c with
  | brk l =>
    cases l with
    | none => exact absurd hc (by simp [absorb])
    | some l =>
      rw [absorb] at hc
      split at hc
      · exact absurd hc (by simp)
      · next hnot =>
          obtain rfl : l = label := by simpa using hc
          exact hnot (List.contains_iff_mem.mpr h)
  | normal | cont _ | ret _ | unfinished => exact absurd hc (by simp [absorb])

end Completion

/-- Labels of letters and digits only. -/
def JumpScope.Plain (scope : JumpScope) : Prop :=
  ∀ label ∈ scope.labels ++ scope.loops, isPlainLabel label = true

section Nesting

variable {bound n : Nat} {scope : JumpScope} {landing : Option (Option String)}
  {run : Run Evaluation Completion} {code : List Stat} {c : Completion} {e : Ending}
  {label : String} {labels : List String} {act : Emit (List Stat)}

/-- A `break` with the label arrives at the label behind the block, and nothing else does. -/
theorem Ends.arrive (h : Ends scope landing c e) (hs : scope.Plain)
    (hl : isPlainLabel label = true) :
    Matches Evaluation.Renders (Ends scope landing) (pure (c.absorb [label]))
      (e.arrive [afterLabel label] (pure .normal)) := by
  cases h with
  | normal => exact .pure .normal
  | leave h => exact .pure (.leave h)
  | nothing => exact .pure .nothing
  | result e s => exact .pure (.result e s)
  | unfinished => exact .pure .unfinished
  | @after other h =>
    have hother := hs other (List.mem_append_left _ h)
    by_cases heq : other = label
    · have harrive : [afterLabel label].contains (afterLabel other) = true := by simp [heq]
      rw [Ending.arrive, if_pos harrive, Completion.absorb, if_pos (by simp [heq])]
      exact .pure .normal
    · have hne : afterLabel other ≠ afterLabel label := fun hafter =>
        heq (Lua.afterLabel_injective hother hl hafter)
      rw [Ending.arrive, if_neg (by simp [hne]), Completion.absorb, if_neg (by simp [heq])]
      exact .pure (.after h)
  | @land k h =>
    have hne := (afterLabel_ne_landingName label k).symm
    rw [Ending.arrive, if_neg (by simp [hne])]
    exact .pure (.land h)
  | @label other h =>
    have hne := Lua.spell_ne_afterLabel (hs other (List.mem_append_right _ h)) label
    rw [Ending.arrive, if_neg (by simp [hne])]
    exact .pure (.label h)

/-- The blocks around labeled code take in the `break`s with the labels. -/
theorem matches_nested (hs : scope.Plain) (hl : ∀ label ∈ labels, isPlainLabel label = true)
    (hcode : Stat.labels code = [])
    (h : Matches Evaluation.Renders (Ends scope landing) run (Stat.walk bound code none)) :
    Stat.labels (nested labels code) = [] ∧
      Matches Evaluation.Renders (Ends scope landing) (do pure ((← run).absorb labels))
        (Stat.walk bound (nested labels code) none) := by
  induction labels with
  | nil =>
    rw [Completion.bind_absorb_nil]
    exact ⟨hcode, h⟩
  | cons label rest ih =>
    obtain ⟨hlabel, hrest⟩ := List.forall_mem_cons.mp hl
    obtain ⟨hinner, hmatches⟩ := ih hrest
    refine ⟨rfl, ?_⟩
    have hrun : (do pure ((← run).absorb (label :: rest))) = (do
        let c ← (do pure ((← run).absorb rest))
        pure (c.absorb [label])) := by
      simp only [bind_assoc, pure_bind, ← Completion.absorb_append, List.singleton_append]
    have hwalk : Stat.walk bound (nested (label :: rest) code) none = (do
        let e ← Stat.walk bound (nested rest code) none
        e.arrive [afterLabel label] (pure .normal)) :=
      (Stat.walk_singleton bound _).trans
        (Stat.runBlock_labels hinner [afterLabel label] (List.forall_mem_nil _) bound)
    rw [hrun, hwalk]
    exact hmatches.bind fun _ _ hends => hends.arrive hs hlabel

theorem Serves.plain_labels {control : Control} (hs : Serves scope labels control) :
    ∀ label ∈ labels, isPlainLabel label = true :=
  fun label hlabel => hs.plain label (List.mem_append_left _ (hs.known label hlabel))

/-- Code under labels: they are constructs while it is made, and blocks around it. -/
theorem Simulates.nested (h : Simulates bound scope labels act run) :
    Simulates bound scope labels (do pure (nested labels (← act)))
      (do pure ((← run).absorb labels)) := by
  intro s hs
  obtain ⟨hcode, hrun⟩ := h s hs
  exact matches_nested hs.plain hs.plain_labels hcode hrun

theorem Simulates.labeledCode (h : Simulates bound scope [] act run) (hc : Sets n act)
    (labels : List String) :
    Simulates bound scope labels (Emission.labeledCode labels act)
      (do pure ((← run).absorb labels)) :=
  (h.labeled hc labels).1.nested

/-- One more label: a `break` with it does not get out. -/
theorem Simulates.labeling (hl : isPlainLabel label = true)
    (h : Simulates bound (scope.labeling label) (labels ++ [label]) act
      (do pure ((← run).absorb (labels ++ [label])))) :
    Simulates bound scope labels act (do
      let c ← (do pure ((← run).absorb [label]))
      pure (c.absorb labels)) := by
  have hrun : (do
      let c ← (do pure ((← run).absorb [label]))
      pure (c.absorb labels)) = (do pure ((← run).absorb (labels ++ [label]))) := by
    simp only [bind_assoc, pure_bind, ← Completion.absorb_append]
  intro s hs
  have hserves : Serves (scope.labeling label) (labels ++ [label]) s.control := by
    refine ⟨fun l hl => ?_, fun l hm => ?_, fun l hm => ?_, hs.continues, hs.leaves, hs.landed⟩
    · rcases List.mem_append.mp hl with hl | hl
      · exact List.mem_cons_of_mem _ (hs.known l hl)
      · exact List.mem_cons.mpr (Or.inl (List.mem_singleton.mp hl))
    · rcases List.mem_cons.mp hm with rfl | hm
      · exact hl
      · exact hs.plain l hm
    · rcases List.mem_cons.mp hm with rfl | hm
      · exact Or.inl (List.mem_append_right _ (List.mem_singleton_self _))
      · exact (hs.breaks l hm).imp_left (List.mem_append_left _)
  obtain ⟨hcode, hmatches⟩ := h s hserves
  rw [hrun]
  refine ⟨hcode, hmatches.image.mono fun c e hends => ?_⟩
  obtain ⟨hends, c', rfl⟩ := hends
  generalize hc : c'.absorb (labels ++ [label]) = c at hends
  cases hends with
  | normal => exact .normal
  | leave h => exact .leave h
  | land h => exact .land h
  | label h => exact .label h
  | nothing => exact .nothing
  | result e s => exact .result e s
  | unfinished => exact .unfinished
  | @after other h =>
    refine .after ((List.mem_cons.mp h).resolve_left ?_)
    rintro rfl
    have hmem : other ∈ labels ++ [other] := List.mem_append_right _ (List.mem_singleton_self _)
    exact c'.absorb_ne_brk hmem hc

end Nesting

section Rounds

variable {bound n : Nat} {scope : JumpScope} {labels : List String} {inner : Option String}
  {outer : Option (Option String)} {c : Completion} {e : Ending} {code step : List Stat}
  {run again : Run Evaluation Completion} {again' : Run Lua.Event Ending}
  {test : Run Evaluation Bool} {cond : Run Lua.Event Bool} {update : Run Evaluation Unit}

/-- The labels behind the body of a loop. -/
def landings (labels : List String) (inner : Option String) : List String :=
  labels.map Lua.spell ++ inner.toList

theorem contains_landings_spell (hl : ∀ label ∈ labels, isPlainLabel label = true)
    (hi : ∀ name, inner = some name → ∃ k, name = landingName k) {label : String}
    (h : isPlainLabel label = true) :
    (landings labels inner).contains (Lua.spell label) = labels.contains label := by
  rw [Bool.eq_iff_iff, List.contains_iff_mem, List.contains_iff_mem, landings, List.mem_append,
    List.mem_map, Option.mem_toList]
  constructor
  · rintro (⟨other, hother, heq⟩ | hinner)
    · rwa [← Lua.spell_injective (hl other hother) h heq]
    · obtain ⟨k, hk⟩ := hi _ hinner
      exact absurd hk (Lua.spell_ne_landingName h k)
  · exact fun hm => Or.inl ⟨label, hm, rfl⟩

theorem not_contains_landings_after (hl : ∀ label ∈ labels, isPlainLabel label = true)
    (hi : ∀ name, inner = some name → ∃ k, name = landingName k) (label : String) :
    (landings labels inner).contains (afterLabel label) = false := by
  rw [Bool.eq_false_iff, ne_eq, List.contains_iff_mem, landings, List.mem_append, List.mem_map,
    Option.mem_toList]
  rintro (⟨other, hother, heq⟩ | hinner)
  · exact Lua.spell_ne_afterLabel (hl other hother) label heq
  · obtain ⟨k, hk⟩ := hi _ hinner
    exact afterLabel_ne_landingName label k hk

/-- After the body of a loop: a `continue` for the loop arrives behind it, where the update is, and
the loop goes on; a bare `break` ends the loop. -/
theorem Ends.round (h : Ends (scope.looping labels) (some inner) c e)
    (hs : (scope.looping labels).Plain) (hl : ∀ label ∈ labels, isPlainLabel label = true)
    (hi : ∀ name, inner = some name → ∃ k, name = landingName k)
    (hstep : Matches Evaluation.Renders (fun _ e => e = .normal) update
      (Stat.walk bound step none))
    (hagain : Matches Evaluation.Renders (Ends scope outer) again again') :
    Matches Evaluation.Renders (Ends scope outer)
      (if c.continues labels then do
        update
        again
      else pure c.outOfLoop)
      (do
        let e ← e.arrive (landings labels inner) (Stat.walk bound step none)
        e.round again') := by
  have hgo : Matches Evaluation.Renders (Ends scope outer) (do
      update
      again) (do
      let e ← Stat.walk bound step none
      e.round again') := by
    refine hstep.bind fun _ e he => ?_
    rw [he]
    exact hagain
  cases h with
  | normal => exact hgo
  | leave _ => exact .pure .normal
  | nothing => exact .pure .nothing
  | result e s => exact .pure (.result e s)
  | unfinished => exact .pure .unfinished
  | @after label h =>
    rw [Ending.arrive, not_contains_landings_after hl hi]
    exact .pure (.after h)
  | @land k h =>
    have hinner : inner = some (landingName k) := Option.some.inj h
    have hc : (landings labels inner).contains (landingName k) = true := by
      simp [landings, hinner]
    rw [Ending.arrive, if_pos hc]
    exact hgo
  | @label label h =>
    have hplain := hs label (List.mem_append_right _ h)
    rw [Ending.arrive, contains_landings_spell hl hi hplain]
    cases hc : labels.contains label with
    | true =>
      rw [if_pos (show (Completion.cont (some label)).continues labels = true from hc)]
      exact hgo
    | false =>
      rw [if_neg (show ¬(Completion.cont (some label)).continues labels = true by
        rw [Completion.continues, hc]; exact Bool.false_ne_true)]
      have hm : label ∉ labels := by simpa using hc
      exact .pure (.label ((List.mem_append.mp h).resolve_left hm))

/-- The body of a loop with the labels and the update behind it. -/
def roundOf (bound : Nat) (labels : List String) (inner : Option String)
    (code step : List Stat) : Run Lua.Event Ending := do
  let e ← Stat.walk bound code none
  e.arrive (landings labels inner) (Stat.walk bound step none)

theorem runBlock_roundOf (hcode : Stat.labels code = []) (hstep : Stat.Straight step) :
    Stat.runBlock bound (.doBlock code :: (landings labels inner).map .label ++ step) =
      roundOf bound labels inner code step := by
  have hblock : Stat.walk bound [.doBlock code] none = Stat.walk bound code none :=
    (Stat.walk_singleton bound _).trans (Stat.runBlock_eq_walk hcode bound)
  have hlabels : Stat.labels [.doBlock code] = [] := rfl
  rw [roundOf, ← hblock, ← Stat.runBlock_labels hlabels _ hstep]
  rfl

variable (hs : (scope.looping labels).Plain) (hl : ∀ label ∈ labels, isPlainLabel label = true)
  (hi : ∀ name, inner = some name → ∃ k, name = landingName k)
  (hbody : Matches Evaluation.Renders (Ends (scope.looping labels) (some inner)) run
    (Stat.walk bound code none))

include hs hl hi hbody

theorem matches_whileLoop (htest : Matches Evaluation.Renders Eq test cond)
    (hstep : Matches Evaluation.Renders (fun _ e => e = .normal) update
      (Stat.walk bound step none)) (n : Nat) :
    Matches Evaluation.Renders (Ends scope outer) (whileLoop labels test run update n)
      (Lua.whileRounds cond (roundOf bound labels inner code step) n) := by
  induction n with
  | zero => exact .pure .unfinished
  | succ n ih =>
    refine htest.bind fun passed passed' heq => ?_
    subst heq
    cases passed with
    | false => exact .pure .normal
    | true =>
      simp only [if_true, roundOf, bind_assoc]
      exact hbody.bind fun c e hends => hends.round hs hl hi hstep ih

/-- The test behind the body is whether to stop. -/
theorem matches_doWhileLoop
    (htest : Matches Evaluation.Renders (fun passed stop => stop = !passed) test cond) (n : Nat) :
    Matches Evaluation.Renders (Ends scope outer) (doWhileLoop labels run test n)
      (Lua.repeatRounds (roundOf bound labels inner code []) cond n) := by
  induction n with
  | zero => exact .pure .unfinished
  | succ n ih =>
    have hagain : Matches Evaluation.Renders (Ends scope outer)
        (do if ← test then doWhileLoop labels run test n else pure .normal)
        (do if ← cond then pure .normal else
          Lua.repeatRounds (roundOf bound labels inner code []) cond n) := by
      refine htest.bind fun passed stop hstop => ?_
      rw [hstop]
      cases passed with
      | false => exact .pure .normal
      | true => exact ih
    have hstep : Matches Evaluation.Renders (fun _ e => e = .normal) (pure ())
        (Stat.walk bound [] none) := .pure rfl
    rw [doWhileLoop, Lua.repeatRounds, roundOf, bind_assoc]
    exact hbody.bind fun c e hends => hends.round hs hl hi hstep hagain

end Rounds

section Loops

variable {bound n : Nat} {scope : JumpScope} {labels : List String} {body : Emit (List Stat)}
  {run : Run Evaluation Completion} {free : String → Prop}

/-- A test is asked for. -/
theorem matches_condition (test : Expr) (s : State) :
    Matches Evaluation.Renders Eq (ask (.test test)) (condition test.emit s).1.truth :=
  matches_ask ⟨s, rfl⟩

theorem matches_conditionOpt (test : Option Expr) (s : State) :
    Matches Evaluation.Renders Eq (Expr.runTest test)
      (conditionOpt (Expr.emitOpt test) s).1.truth := by
  cases test with
  | none => exact .pure rfl
  | some test => exact matches_condition test s

theorem matches_not {test : Run Evaluation Bool} {c : Lua.Expr}
    (h : Matches Evaluation.Renders Eq test c.truth) :
    Matches Evaluation.Renders (fun passed stop => stop = !passed) test
      (c.unop .not).truth := by
  rw [← bind_pure test]
  refine h.bind fun passed passed' heq => .pure ?_
  rw [heq]

/-- What a loop has, whatever follows its body: a landing that was made for it, and the body with
the labels behind it. -/
theorem Simulates.loopBody (h : Simulates bound (scope.looping labels) [] body run)
    (hc : Codes .all n free body) {s : State} (hs : Serves scope labels s.control) :
    ∃ (code : List Stat) (inner : Option String),
      (∀ name, inner = some name → ∃ k, name = landingName k) ∧
      Matches Evaluation.Renders (Ends (scope.looping labels) (some inner)) run
        (Stat.walk bound code none) ∧
      ∀ step, Stat.Straight step →
        Stat.runBlock bound ((Emission.loopBody labels body s).1 ++ step) =
          roundOf bound labels inner code step := by
  have hserves : Serves (scope.looping labels) [] (.loop labels none :: s.control) := hs.loop
  obtain ⟨hlabels, hrun⟩ := h { s with control := .loop labels none :: s.control } hserves
  have hlands := hc { s with control := .loop labels none :: s.control }
  obtain ⟨inner, hcontrol, -⟩ := hlands.looped covers_all
  have hlanded := (hserves.touches hlands.touches).landed
  rw [hcontrol] at hrun hlanded
  refine ⟨_, inner, fun name hname => hlanded name (congrArg some hname), hrun, ?_⟩
  intro step hstep
  rw [loopBody_eq hcontrol]
  exact runBlock_roundOf hlabels hstep

theorem steady_condition (test : Expr) (s : State) : Steady s (condition test.emit s).2 :=
  (covers_all.law.condition test.calm_all s).1

theorem steady_conditionOpt (test : Option Expr) (s : State) :
    Steady s (conditionOpt (Expr.emitOpt test) s).2 := by
  cases test with
  | none => exact .refl s
  | some test => exact steady_condition test s

theorem Simulates.whileCode (h : Simulates bound (scope.looping labels) [] body run)
    (hc : Codes .all n free body) (test : Expr) :
    Simulates bound scope labels (Emission.whileCode labels test.emit body)
      (whileLoop labels (ask (.test test)) run (pure ()) bound) := by
  intro s hs
  have hs' : Serves scope labels (condition test.emit s).2.control :=
    (steady_condition test s).1 ▸ hs
  obtain ⟨code, inner, hi, hbody, hblock⟩ := h.loopBody hc hs'
  have hround := hblock [] (List.forall_mem_nil _)
  rw [List.append_nil] at hround
  have hwalk : Stat.walk bound (Emission.whileCode labels test.emit body s).1 none =
      Lua.whileRounds (condition test.emit s).1.truth (roundOf bound labels inner code []) bound :=
    (Stat.walk_singleton bound _).trans (congrArg (Lua.whileRounds _ · bound) hround)
  refine ⟨rfl, ?_⟩
  rw [hwalk]
  exact matches_whileLoop hs'.loop.plain hs.plain_labels hi hbody (matches_condition test s)
    (.pure rfl) bound

theorem Simulates.doWhileCode (h : Simulates bound (scope.looping labels) [] body run)
    (hc : Codes .all n free body) (test : Expr) :
    Simulates bound scope labels (Emission.doWhileCode labels body test.emit)
      (doWhileLoop labels run (ask (.test test)) bound) := by
  intro s hs
  obtain ⟨code, inner, hi, hbody, hblock⟩ := h.loopBody hc hs
  have hround := hblock [] (List.forall_mem_nil _)
  rw [List.append_nil] at hround
  have hwalk : Stat.walk bound (Emission.doWhileCode labels body test.emit s).1 none =
      Lua.repeatRounds (roundOf bound labels inner code [])
        (Lua.Expr.unop .not (condition test.emit (Emission.loopBody labels body s).2).1).truth
        bound :=
    (Stat.walk_singleton bound _).trans (congrArg (Lua.repeatRounds · _ bound) hround)
  refine ⟨rfl, ?_⟩
  rw [hwalk]
  exact matches_doWhileLoop hs.loop.plain hs.plain_labels hi hbody
    (matches_not (matches_condition test _)) bound

/-- The code made by the action is straight, and does what it is told. -/
def Effects (bound : Nat) (act : Emit (List Stat)) (run : Run Evaluation Unit) : Prop :=
  ∀ s, Steady s (act s).2 ∧ Stat.Straight (act s).1 ∧
    Matches Evaluation.Renders (fun _ e => e = .normal) run (Stat.walk bound (act s).1 none)

theorem effects_emit (e : Expr) : Effects bound e.emit.effect (perform [.effect e]) := by
  intro s
  have hcalm := e.calm_all
  refine ⟨(hcalm.effect s).1, e.straight_effect s, ?_⟩
  rw [(e.straight_effect s).walk, ← bind_pure (perform [Evaluation.effect e])]
  exact (matches_perform ⟨s, rfl⟩).bind fun _ _ _ => .pure rfl

theorem effects_nothing : Effects bound (pure []) (pure ()) :=
  fun s => ⟨.refl s, List.forall_mem_nil _, .pure rfl⟩

theorem effects_emitOpt (e : Option Expr) :
    Effects bound (((Expr.emitOpt e).map Rendition.effect).getD (pure [])) (Expr.runEffect e) := by
  cases e with
  | none => exact effects_nothing
  | some e => exact effects_emit e

theorem fst_forCode (labels : List String) (init : Emit (List Stat)) (test : Option Rendition)
    (update body : Emit (List Stat)) (s : State) :
    (Emission.forCode labels init test update body s).1 =
      (init s).1 ++ [.whileLoop (conditionOpt test (init s).2).1
        ((Emission.loopBody labels body (conditionOpt test (init s).2).2).1 ++
          (update (Emission.loopBody labels body (conditionOpt test (init s).2).2).2).1)] := by
  rw [forCode_eq]
  rfl

theorem Simulates.forCode (h : Simulates bound (scope.looping labels) [] body run)
    (hc : Codes .all n free body) {init update : Emit (List Stat)}
    {start step : Run Evaluation Unit} (hinit : Effects bound init start) (test : Option Expr)
    (hupdate : Effects bound update step) :
    Simulates bound scope labels
      (Emission.forCode labels init (Expr.emitOpt test) update body) (do
        start
        whileLoop labels (Expr.runTest test) run step bound) := by
  intro s hs
  obtain ⟨hsteady, hstraight, hstart⟩ := hinit s
  have hsteady' := hsteady.trans (steady_conditionOpt test (init s).2)
  have hs' : Serves scope labels (conditionOpt (Expr.emitOpt test) (init s).2).2.control :=
    hsteady'.1 ▸ hs
  obtain ⟨code, inner, hi, hbody, hblock⟩ := h.loopBody hc hs'
  obtain ⟨-, hstep, hmatches⟩ := hupdate
    (Emission.loopBody labels body (conditionOpt (Expr.emitOpt test) (init s).2).2).2
  have hwalk := (Stat.walk_singleton bound (.whileLoop _ _)).trans
    (congrArg (Lua.whileRounds (conditionOpt (Expr.emitOpt test) (init s).2).1.truth · bound)
      (hblock _ hstep))
  rw [fst_forCode, Stat.labels_append, Stat.walk_append, hstraight.labels]
  refine ⟨rfl, hstart.bind fun _ e he => ?_⟩
  rw [he, Ending.next, hwalk]
  exact matches_whileLoop hs'.loop.plain hs.plain_labels hi hbody
    (matches_conditionOpt test (init s).2) hmatches bound

end Loops

end EcmaLua
