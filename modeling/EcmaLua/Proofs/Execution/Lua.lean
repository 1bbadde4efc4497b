import EcmaLua.Proofs.Execution.Machine
import EcmaLua.Proofs.Lua.Jumps

/-!
# How Lua runs

Blocks, loops, conditionals and jumps, with expressions and plain statements as opaque actions. A
jump goes to its label in the nearest block around it that has one: forwards the statements in
between are skipped, backwards the block is gone through once more. Every loop, and every block
with jumps backwards, goes round at most as often as the bound says.
-/

namespace EcmaLua.Lua

open Execution

/-- What a run evaluates. -/
inductive Event where
  | act (s : Stat)
  | test (e : Expr)

/-- How a statement ends. -/
inductive Ending where
  | normal
  /-- a `break` for the nearest loop -/
  | leave
  | jump (label : String)
  | ret (value : Expr)
  /-- the bound was reached -/
  | unfinished

/-- What there is to evaluate in a statement without others in it. -/
def Stat.actions : Stat → List Event
  | .note _ | .marker _ | .declare _ => []
  | s => [.act s]

/-- The truth value of a condition; constants and negations are not asked for. -/
def Expr.truth : Expr → Run Event Bool
  | .bool b => pure b
  | .unop .not e => do pure !(← e.truth)
  | e => ask (.test e)

/-- Go on behind a statement, with the label that is sought if there is one. -/
def Ending.next (e : Ending) (rest : Option String → Run Event Ending) : Run Event Ending :=
  match e with
  | .normal => rest none
  | .jump label => rest (some label)
  | .leave => pure .leave
  | .ret value => pure (.ret value)
  | .unfinished => pure .unfinished

/-- The end of a list of statements; a label that was sought is not in it. -/
def Ending.atEnd : Option String → Ending
  | none => .normal
  | some label => .jump label

/-- Go on after a round of a loop. -/
def Ending.round (e : Ending) (again : Run Event Ending) : Run Event Ending :=
  match e with
  | .normal => again
  | .leave => pure .normal
  | .jump label => pure (.jump label)
  | .ret value => pure (.ret value)
  | .unfinished => pure .unfinished

def whileRounds (test : Run Event Bool) (body : Run Event Ending) : Nat → Run Event Ending
  | 0 => pure .unfinished
  | n + 1 => do
    if ← test then (← body).round (whileRounds test body n)
    else pure .normal

def repeatRounds (body : Run Event Ending) (test : Run Event Bool) : Nat → Run Event Ending
  | 0 => pure .unfinished
  | n + 1 => do
    (← body).round do
      if ← test then pure .normal
      else repeatRounds body test n

/-- The end of a block with the labels: a jump to one of them goes back into the block. -/
def Ending.back (labels : List String) (again : Option String → Run Event Ending) (e : Ending) :
    Run Event Ending :=
  match e with
  | .jump label => if labels.contains label then again (some label) else pure (.jump label)
  | e => pure e

/-- Go through a block as often as there are jumps backwards in it. -/
def blockRounds (labels : List String) (walk : Option String → Run Event Ending) :
    Nat → Option String → Run Event Ending
  | 0, _ => pure .unfinished
  | n + 1, sought => do (← walk sought).back labels (blockRounds labels walk n)

def Stat.isLabel (name : String) : Stat → Bool
  | .label other => other == name
  | _ => false

mutual

/-- Run a statement. A loop over keys has another key as long as the answers say so. -/
def Stat.run (bound : Nat) : Stat → Run Event Ending
  | .doBlock body => blockRounds (Stat.labels body) (Stat.walk bound body) (bound + 1) none
  | .whileLoop cond body =>
    whileRounds cond.truth
      (blockRounds (Stat.labels body) (Stat.walk bound body) (bound + 1) none) bound
  | .repeatUntil body cond =>
    repeatRounds (blockRounds (Stat.labels body) (Stat.walk bound body) (bound + 1) none)
      cond.truth bound
  | .ifThen cond body tail => do
    if ← cond.truth then
      blockRounds (Stat.labels body) (Stat.walk bound body) (bound + 1) none
    else tail.run bound
  | .forIn _ _ iterator body =>
    whileRounds iterator.truth
      (blockRounds (Stat.labels body) (Stat.walk bound body) (bound + 1) none) bound
  | .scoped proxy object body => do
    perform [.act (.define [proxy] object)]
    blockRounds (Stat.labels body) (Stat.walk bound body) (bound + 1) none
  | .goTo label => pure (.jump label)
  | .label _ => pure .normal
  | .breakLoop => pure .leave
  | .ret value => pure (.ret value)
  | s => do
    perform s.actions
    pure .normal

def Tail.run (bound : Nat) : Tail → Run Event Ending
  | .none => pure .normal
  | .otherwise body => blockRounds (Stat.labels body) (Stat.walk bound body) (bound + 1) none
  | .elseif cond body tail => do
    if ← cond.truth then
      blockRounds (Stat.labels body) (Stat.walk bound body) (bound + 1) none
    else tail.run bound

/-- Go through statements; while a label is sought, all others are skipped. -/
def Stat.walk (bound : Nat) : List Stat → Option String → Run Event Ending
  | [], sought => pure (.atEnd sought)
  | s :: rest, none => do (← s.run bound).next (Stat.walk bound rest)
  | s :: rest, some label =>
    if s.isLabel label then Stat.walk bound rest none else Stat.walk bound rest (some label)

end

/-- Run a block. -/
def Stat.runBlock (bound : Nat) (code : List Stat) : Run Event Ending :=
  blockRounds (Stat.labels code) (Stat.walk bound code) (bound + 1) none

section Walks

variable {bound : Nat} {a b code : List Stat}

theorem Stat.walk_append (bound : Nat) (a b : List Stat) (sought : Option String) :
    Stat.walk bound (a ++ b) sought =
      (do (← Stat.walk bound a sought).next (Stat.walk bound b)) := by
  induction a generalizing sought with
  | nil => cases sought <;> rfl
  | cons s rest ih =>
    cases sought with
    | none =>
      rw [List.cons_append, Stat.walk, Stat.walk, bind_assoc]
      refine bind_congr fun e => ?_
      cases e with
      | normal => exact ih none
      | jump label => exact ih (some label)
      | leave => rfl
      | ret value => rfl
      | unfinished => rfl
    | some label =>
      rw [List.cons_append, Stat.walk, Stat.walk]
      split
      · exact ih none
      · exact ih (some label)

/-- A single statement ends as it does. -/
theorem Stat.walk_singleton (bound : Nat) (s : Stat) : Stat.walk bound [s] none = s.run bound := by
  rw [Stat.walk]
  conv_rhs => rw [← bind_pure (s.run bound)]
  refine bind_congr fun e => ?_
  cases e <;> rfl

/-- In statements without labels a sought label is not found. -/
theorem Stat.walk_sought (h : Stat.labels code = []) (bound : Nat) (label : String) :
    Stat.walk bound code (some label) = pure (.jump label) := by
  induction code with
  | nil => rfl
  | cons s rest ih =>
    have hs : s.isLabel label = false ∧ Stat.labels rest = [] := by
      cases s <;> simp_all [Stat.labels, Stat.isLabel]
    rw [Stat.walk, if_neg (by simp [hs.1]), ih hs.2]

/-- A block without labels is gone through once. -/
theorem Stat.runBlock_eq_walk (h : Stat.labels code = []) (bound : Nat) :
    Stat.runBlock bound code = Stat.walk bound code none := by
  rw [Stat.runBlock, blockRounds]
  conv_rhs => rw [← bind_pure (Stat.walk bound code none)]
  refine bind_congr fun e => ?_
  cases e <;> simp [Ending.back, h]

/-- Behind labels at the end of a block: a jump to one of them has arrived. -/
def Ending.arrive (e : Ending) (names : List String) (rest : Run Event Ending) :
    Run Event Ending :=
  match e with
  | .normal => rest
  | .jump label => if names.contains label then rest else pure (.jump label)
  | .leave => pure .leave
  | .ret value => pure (.ret value)
  | .unfinished => pure .unfinished

/-- Statements that have no others in them and do not jump. -/
def Stat.isStraight : Stat → Bool
  | .note _ | .marker _ | .declare _ | .define .. | .assign .. | .store .. | .call _
  | .select .. => true
  | _ => false

def Stat.Straight (code : List Stat) : Prop := ∀ s ∈ code, s.isStraight = true

theorem Stat.Straight.labels (h : Stat.Straight code) : Stat.labels code = [] := by
  induction code with
  | nil => rfl
  | cons s rest ih =>
    obtain ⟨hs, hrest⟩ := List.forall_mem_cons.mp h
    cases s <;> simp_all [Stat.labels, Stat.isStraight, Stat.Straight]

/-- Straight code performs its actions. -/
theorem Stat.Straight.walk (h : Stat.Straight code) (bound : Nat) :
    Stat.walk bound code none = (do
      perform (code.flatMap Stat.actions)
      pure .normal) := by
  induction code with
  | nil =>
    rw [Stat.walk, List.flatMap_nil, perform_nil, pure_bind]
    rfl
  | cons s rest ih =>
    obtain ⟨hs, hrest⟩ := List.forall_mem_cons.mp h
    have hrun : s.run bound = (do
        perform s.actions
        pure .normal) := by
      cases s <;> first | rfl | exact absurd hs (by simp [Stat.isStraight])
    simp only [Stat.walk, hrun, bind_assoc, pure_bind, Ending.next, ih hrest,
      List.flatMap_cons, perform_append]

/-- Straight code without actions around others changes nothing. -/
theorem Stat.walk_between (ha : Stat.Straight a) (ha' : ∀ s ∈ a, s.actions = [])
    (hb : Stat.Straight b) (hb' : ∀ s ∈ b, s.actions = []) (bound : Nat) :
    Stat.walk bound (a ++ code ++ b) none = Stat.walk bound code none := by
  have hsilent {c : List Stat} (hc : Stat.Straight c) (hc' : ∀ s ∈ c, s.actions = []) :
      Stat.walk bound c none = pure .normal := by
    rw [hc.walk, List.flatMap_eq_nil_iff.mpr hc', perform_nil, pure_bind]
  rw [List.append_assoc, Stat.walk_append, hsilent ha ha', pure_bind, Ending.next,
    Stat.walk_append]
  conv_rhs => rw [← bind_pure (Stat.walk bound code none)]
  refine bind_congr fun e => ?_
  cases e with
  | normal => exact hsilent hb hb'
  | jump label => exact Stat.walk_sought hb.labels bound label
  | leave => rfl
  | ret value => rfl
  | unfinished => rfl

theorem Stat.walk_labels (names : List String) (bound : Nat) (sought : Option String) :
    Stat.walk bound (names.map .label) sought =
      pure (if sought.all names.contains then .normal else .atEnd sought) := by
  induction names generalizing sought with
  | nil => cases sought <;> rfl
  | cons name rest ih =>
    cases sought with
    | none => exact ih none
    | some label =>
      rw [List.map_cons, Stat.walk, ih none, ih (some label)]
      by_cases hname : name = label
      · simp [Stat.isLabel, hname]
      · simp [Stat.isLabel, hname, Ne.symm hname]

/-- A block with its labels behind everything that jumps is gone through once. -/
theorem Stat.runBlock_labels (h : Stat.labels a = []) (names : List String)
    (hb : Stat.Straight b) (bound : Nat) :
    Stat.runBlock bound (a ++ (names.map .label ++ b)) =
      (do (← Stat.walk bound a none).arrive names (Stat.walk bound b none)) := by
  have hlabels : Stat.labels (a ++ (names.map .label ++ b)) = names := by
    rw [Stat.labels_append, Stat.labels_append, Stat.labels_map_label, h, hb.labels,
      List.nil_append, List.append_nil]
  have hdone (again : Option String → Run Event Ending) :
      (Stat.walk bound b none >>= Ending.back names again) = Stat.walk bound b none := by
    rw [hb.walk, bind_assoc]
    rfl
  rw [Stat.runBlock, blockRounds, hlabels, Stat.walk_append, bind_assoc]
  refine bind_congr fun e => ?_
  cases e with
  | normal =>
    rw [Ending.next, Stat.walk_append, Stat.walk_labels]
    exact hdone _
  | jump label =>
    rw [Ending.next, Stat.walk_append, Stat.walk_labels, Option.all_some, Ending.arrive]
    by_cases hl : names.contains label = true
    · rw [if_pos hl, if_pos hl]
      exact hdone _
    · rw [if_neg hl, if_neg hl]
      simp only [Ending.atEnd, pure_bind, Ending.next, Stat.walk_sought hb.labels, Ending.back,
        if_neg hl]
  | leave => rfl
  | ret value => rfl
  | unfinished => rfl

end Walks

end EcmaLua.Lua
