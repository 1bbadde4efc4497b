import EcmaLua.Proofs.Emission.Settled
import EcmaLua.Proofs.Execution.Lua
import EcmaLua.Proofs.Execution.Program

/-!
# The code runs as the program does

A structured statement and its code, run on machines in agreement, leave them in agreement and end
in ways that correspond: a `break` with a label is a jump behind the labeled statement, a `continue`
a jump to the end of the body of its loop, and both arrive there.
-/

namespace EcmaLua

open Emission Execution
open Lua (Stat)

namespace Lua

section Labels

variable {a b : String}

/-- A label of letters and digits is spelled as it is, unless it is a reserved word. -/
theorem spell_plain {label : String} (h : isPlainLabel label = true) :
    spell label = label ∨ label ∈ reserved ∧ spell label = "_R_" ++ label := by
  have hchars : label.toList.flatMap spellChar = label.toList := by
    have hone : ∀ c ∈ label.toList, spellChar c = [c] := by
      intro c hc
      have halpha : c.isAlphanum = true := List.all_eq_true.mp h c hc
      have hdollar : c ≠ '$' := by
        rintro rfl
        exact absurd halpha (by decide)
      rw [spellChar, if_neg hdollar, if_pos (by simp [isNameChar, halpha])]
    generalize label.toList = cs at hone
    induction cs with
    | nil => rfl
    | cons c rest ih =>
      obtain ⟨hc, hrest⟩ := List.forall_mem_cons.mp hone
      rw [List.flatMap_cons, hc, ih hrest]
      rfl
  simp only [spell, hchars, String.ofList_toList]
  split
  · next hr => exact Or.inr ⟨by simpa [isReserved] using hr, rfl⟩
  · exact Or.inl rfl

theorem underscore_not_mem {label : String} (h : isPlainLabel label = true) :
    '_' ∉ label.toList := by
  intro hm
  exact absurd (List.all_eq_true.mp h '_' hm) (by decide)

theorem spell_injective (ha : isPlainLabel a = true) (hb : isPlainLabel b = true)
    (h : spell a = spell b) : a = b := by
  have hmem (x : String) : '_' ∈ ("_R_" ++ x).toList := by simp
  rcases spell_plain ha with hsa | ⟨-, hsa⟩
  · rcases spell_plain hb with hsb | ⟨-, hsb⟩
    · rwa [hsa, hsb] at h
    · rw [hsa, hsb] at h
      exact absurd (h ▸ hmem b) (underscore_not_mem ha)
  · rcases spell_plain hb with hsb | ⟨-, hsb⟩
    · rw [hsa, hsb] at h
      exact absurd (h ▸ hmem a) (underscore_not_mem hb)
    · rw [hsa, hsb] at h
      exact (String.append_right_inj _).mp h

theorem spell_ne_landingName (ha : isPlainLabel a = true) (k : Nat) :
    spell a ≠ landingName k := by
  intro h
  have hhead := congrArg (fun text : String => text.toList[1]?) h
  rcases spell_plain ha with hs | ⟨-, hs⟩
  · refine underscore_not_mem ha ?_
    rw [← hs, h]
    simp [landingName]
  · rw [hs] at hhead
    simp [landingName] at hhead

theorem spell_ne_afterLabel (ha : isPlainLabel a = true) (label : String) :
    spell a ≠ afterLabel label := by
  intro h
  rcases spell_plain ha with hs | ⟨hr, hs⟩
  · refine underscore_not_mem ha ?_
    rw [← hs, h]
    simp [afterLabel]
  · have hall : reserved.all (fun word =>
        ("_R_" ++ word).toList.reverse.take 2 != ['r', 'e']) = true := by decide
    have hlast : ("_R_" ++ a).toList.reverse.take 2 = ['r', 'e'] := by
      rw [← hs, h]
      simp [afterLabel]
    exact bne_iff_ne.mp (List.all_eq_true.mp hall a hr) hlast

theorem afterLabel_injective (ha : isPlainLabel a = true) (hb : isPlainLabel b = true)
    (h : afterLabel a = afterLabel b) : a = b :=
  spell_injective ha hb ((String.append_left_inj _).mp h)

end Labels

end Lua

/-- The events of the code of an evaluation, made in some state. -/
def Evaluation.Renders : Evaluation → List Lua.Event → Prop
  | .effect e, group => ∃ s, group = (e.emit.effect s).1.flatMap Stat.actions
  | .test e, group => ∃ s, group = [.test (condition e.emit s).1]

/-- How code ends when its statement completes, with the landing of the nearest loop. -/
inductive Ends (scope : JumpScope) (landing : Option (Option String)) :
    Completion → Lua.Ending → Prop
  | normal : Ends scope landing .normal .normal
  | leave (h : scope.inLoop = true) : Ends scope landing (.brk none) .leave
  | after {label : String} (h : label ∈ scope.labels) :
      Ends scope landing (.brk (some label)) (.jump (afterLabel label))
  | land {k : Nat} (h : landing = some (some (landingName k))) :
      Ends scope landing (.cont none) (.jump (landingName k))
  | label {label : String} (h : label ∈ scope.loops) :
      Ends scope landing (.cont (some label)) (.jump (Lua.spell label))
  | nothing : Ends scope landing (.ret none) (.ret .nil)
  | result (e : Expr) (s : State) : Ends scope landing (.ret (some e)) (.ret (e.emit.value s).1)
  | unfinished : Ends scope landing .unfinished .unfinished

/-- The constructs around a place, and the labels right before it, offer what the scope has. -/
structure Serves (scope : JumpScope) (pending : List String) (control : Control) : Prop where
  known : ∀ label ∈ pending, label ∈ scope.labels
  plain : ∀ label ∈ scope.labels ++ scope.loops, isPlainLabel label = true
  breaks : ∀ label ∈ scope.labels,
    label ∈ pending ∨ control.breakJump (some label) = .goTo (afterLabel label)
  continues : ∀ label ∈ scope.loops, ∀ supply,
    (control.continueJump (some label) supply).1 = .goTo (Lua.spell label)
  leaves : scope.inLoop = true → control.breakJump none = .leave ∧ control.landing ≠ none
  landed : ∀ name, control.landing = some (some name) → ∃ k, name = landingName k

/-- The code made by the action has no labels among its statements, and runs as told. -/
def Simulates (bound : Nat) (scope : JumpScope) (pending : List String)
    (act : Emit (List Stat)) (run : Run Evaluation Completion) : Prop :=
  ∀ s, Serves scope pending s.control → Stat.labels (act s).1 = [] ∧
    Matches Evaluation.Renders (Ends scope (act s).2.control.landing) run
      (Stat.walk bound (act s).1 none)

section Scopes

variable {scope : JumpScope} {pending labels : List String} {control : Control} {n : Nat}
  {s s' : State}

theorem Emission.Control.breakJump_land (label : Option String) (name : String)
    (control : Control) : (control.land name).breakJump label = control.breakJump label := by
  induction control with
  | nil => rfl
  | cons e rest ih =>
    cases e with
    | loop labels landing => cases label <;> rfl
    | switch =>
      cases label with
      | none => rfl
      | some label => exact ih
    | labeled other =>
      simp only [Control.land, Control.breakJump]
      rw [ih]
    | barrier => rfl

theorem Emission.Control.continueJump_land (label name : String) (supply : Supply)
    (control : Control) :
    ((control.land name).continueJump (some label) supply).1 =
      (control.continueJump (some label) supply).1 := by
  induction control with
  | nil => rfl
  | cons e rest ih =>
    cases e with
    | loop labels landing =>
      simp only [Control.land, Control.continueJump]
      split <;> rfl
    | switch => exact ih
    | labeled other => exact ih
    | barrier => rfl

/-- Setting a landing takes nothing away from the scope. -/
theorem Serves.touches (h : Serves scope pending s.control) (ht : Touches n s s') :
    Serves scope pending s'.control := by
  refine ⟨h.known, h.plain, ?_, ?_, fun hl => ?_, fun name hname => ?_⟩
  · rcases ht with ⟨heq, -⟩ | ⟨-, -, k, -, -, heq⟩
    · rw [heq]
      exact h.breaks
    · simp only [heq, Control.breakJump_land]
      exact h.breaks
  · rcases ht with ⟨heq, -⟩ | ⟨-, -, k, -, -, heq⟩
    · rw [heq]
      exact h.continues
    · simp only [heq, Control.continueJump_land]
      exact h.continues
  · obtain ⟨hb, hn⟩ := h.leaves hl
    rcases ht with ⟨heq, -⟩ | ⟨-, -, k, -, -, heq⟩
    · rw [heq]
      exact ⟨hb, hn⟩
    · rw [heq, Control.breakJump_land, Control.landing_land hn]
      exact ⟨hb, by simp⟩
  · rcases ht.landing hname with hs | ⟨-, k, -, -, rfl⟩
    · exact h.landed name hs
    · exact ⟨k, rfl⟩

/-- A label becomes a construct. -/
theorem Serves.labeled {label : String} (h : Serves scope (label :: pending) control) :
    Serves scope pending (.labeled label :: control) := by
  refine ⟨fun l hl => h.known l (List.mem_cons_of_mem _ hl), h.plain, fun l hl => ?_,
    h.continues, fun hin => ?_, h.landed⟩
  · by_cases heq : some l = some label
    · obtain rfl : l = label := by simpa using heq
      exact Or.inr (by simp [Control.breakJump])
    · rcases h.breaks l hl with hp | hj
      · rcases List.mem_cons.mp hp with rfl | hp
        · exact absurd rfl heq
        · exact Or.inl hp
      · exact Or.inr (by rw [Control.breakJump, if_neg heq, hj])
  · obtain ⟨hb, hn⟩ := h.leaves hin
    exact ⟨by rw [Control.breakJump, if_neg (by simp), hb], hn⟩

/-- The labels right before a loop become those of the loop. -/
theorem Serves.loop (h : Serves scope pending control) :
    Serves (scope.looping pending) [] (.loop pending none :: control) := by
  refine ⟨nofun, fun l hl => ?_, fun l hl => Or.inr ?_, fun l hl supply => ?_,
    fun _ => ⟨rfl, by simp [Control.landing]⟩, fun name hname => ?_⟩
  · rw [List.mem_append] at hl
    rcases hl with hl | hl
    · exact h.plain l (List.mem_append_left _ hl)
    · rcases List.mem_append.mp hl with hl | hl
      · exact h.plain l (List.mem_append_left _ (h.known l hl))
      · exact h.plain l (List.mem_append_right _ hl)
  · by_cases hp : l ∈ pending
    · simp [Control.breakJump, hp]
    · have hj := (h.breaks l hl).resolve_left hp
      simp [Control.breakJump, hp, hj]
  · by_cases hp : l ∈ pending
    · simp [Control.continueJump, hp]
    · have hm : l ∈ scope.loops := (List.mem_append.mp hl).resolve_left hp
      simp [Control.continueJump, hp, h.continues l hm supply]
  · exact absurd hname (by simp [Control.landing])

end Scopes

mutual

/-- The effect of an expression is straight code. -/
theorem Expr.straight_effect : (e : Expr) → (s : State) → Stat.Straight (e.emit.effect s).1
  | .seq items, s => Expr.straight_effects items s
  | .ident _, _ | .this, _ | .lit _, _ | .array _, _ | .object _, _ | .func _, _ | .unary _ _, _
  | .update _ _ _, _ | .binary _ _ _, _ | .logical _ _ _, _ | .assign _ _ _, _ | .cond _ _ _, _
  | .call _ _, _ | .new _ _, _ | .member _ _, _ | .index _ _, _ | .unsupported _, _ =>
    List.forall_mem_singleton.mpr rfl

theorem Expr.straight_effects : (es : List Expr) → (s : State) →
    Stat.Straight (Expr.emitEffects es s).1
  | [], _ => nofun
  | e :: rest, s =>
    List.forall_mem_append.mpr ⟨e.straight_effect s, Expr.straight_effects rest _⟩

end

/-- Making code with `n` bare `continue`s sets no more than the landing of the nearest loop. -/
def Sets {α : Type} (n : Nat) (act : Emit α) : Prop := ∀ s, Touches n s (act s).2

theorem Emission.Codes.sets {n : Nat} {free : String → Prop} {act : Emit (List Stat)}
    (h : Codes .all n free act) : Sets n act :=
  fun s => (h s).touches

theorem Emission.Gives.sets {α : Type} {P : α → Prop} {act : Emit α} (h : Gives P act) :
    Sets 0 act :=
  fun s => Or.inl ⟨(h s).1.1, fun _ => rfl⟩

section Kit

variable {bound n m : Nat} {scope : JumpScope} {pending labels : List String}
  {landing landing' : Option (Option String)} {act act' : Emit (List Stat)}
  {run run' : Run Evaluation Completion} {c : Completion}
  {e : Lua.Ending} {code : List Stat} {s : State}

theorem Ends.mono (h : Ends scope landing c e)
    (hl : ∀ name, landing = some (some name) → landing' = some (some name)) :
    Ends scope landing' c e := by
  cases h with
  | normal => exact .normal
  | leave h => exact .leave h
  | after h => exact .after h
  | land h => exact .land (hl _ h)
  | label h => exact .label h
  | nothing => exact .nothing
  | result e s => exact .result e s
  | unfinished => exact .unfinished

theorem matches_effect (expr : Expr) (s : State) :
    Matches Evaluation.Renders (Ends scope landing)
      (do
        perform [.effect expr]
        pure .normal)
      (Stat.walk bound (expr.emit.effect s).1 none) := by
  rw [(expr.straight_effect s).walk]
  exact (matches_perform ⟨s, rfl⟩).bind fun _ _ _ => .pure .normal

/-- Behind a statement goes what follows it, which has no labels. -/
theorem Ends.next (h : Ends scope landing c e)
    (hl : ∀ name, landing = some (some name) → landing' = some (some name))
    (hcode : Stat.labels code = [])
    (hrun : Matches Evaluation.Renders (Ends scope landing') run
      (Stat.walk bound code none)) :
    Matches Evaluation.Renders (Ends scope landing') (c.next run)
      (e.next (Stat.walk bound code)) := by
  have h' := h.mono hl
  cases h with
  | normal => exact hrun
  | after _ | land _ | label _ =>
    rw [Lua.Ending.next, Stat.walk_sought hcode]
    exact .pure h'
  | leave _ | nothing | result _ _ | unfinished => exact .pure h'

theorem Simulates.append (h : Simulates bound scope [] act run)
    (hc : Sets n act) (h' : Simulates bound scope [] act' run') (hc' : Sets m act') :
    Simulates bound scope [] (do
      let code ← act
      let rest ← act'
      pure (code ++ rest)) (do (← run).next run') := by
  intro s hs
  obtain ⟨hlabels, hrun⟩ := h s hs
  obtain ⟨hlabels', hrun'⟩ := h' (act s).2 (hs.touches (hc s))
  have hlanded (name : String) : (act s).2.control.landing = some (some name) →
      (act' (act s).2).2.control.landing = some (some name) := (hc' (act s).2).landed
  refine ⟨(Stat.labels_append _ _).trans (by rw [hlabels, hlabels']; rfl), ?_⟩
  have happend := Stat.walk_append bound (act s).1 (act' (act s).2).1 none
  refine (congrArg _ happend).mpr ?_
  exact hrun.bind fun _ _ hends => hends.next hlanded hlabels' hrun'

/-- Acting within labeled statements. -/
theorem Simulates.labeled (h : Simulates bound scope [] act run) (hc : Sets n act)
    (labels : List String) : Simulates bound scope labels (Emission.labeled labels act) run ∧
      Sets n (Emission.labeled labels act) := by
  induction labels with
  | nil => exact ⟨h, hc⟩
  | cons label rest ih =>
    obtain ⟨hrest, htouches⟩ := ih
    have hunwrap (s : State) :=
      (htouches { s with control := .labeled label :: s.control }).unwrap
        (Or.inr ⟨label, rfl⟩)
    refine ⟨fun s hs => ?_, fun s => (hunwrap s).2.1⟩
    obtain ⟨hlabels, hrun⟩ := hrest { s with control := .labeled label :: s.control } hs.labeled
    rw [(hunwrap s).2.2] at hrun
    exact ⟨hlabels, hrun⟩

end Kit

end EcmaLua
