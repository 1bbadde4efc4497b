import EcmaLua.Emission.Code

/-!
# What an action ensures

An action ensures a property of its result under an invariant of the state: started in a state
with the invariant it gives a result with the property, and leaves the invariant in place. The
lemmas follow the shape of an action. Then come equations for the actions of an emission: what
the primitive ones do to the state, and the longer ones as plain sequences of their steps.
-/

namespace EcmaLua

open Emission
open Lua (Stat)

/-- Under the invariant, every result has the property, and the invariant stays. -/
def Ensures {σ α : Type} (I : σ → Prop) (P : α → Prop) (act : StateM σ α) : Prop :=
  ∀ s, I s → P (act s).1 ∧ I (act s).2

namespace Ensures

variable {σ α β : Type} {I : σ → Prop} {P Q : α → Prop} {R : β → Prop}

theorem pure {a : α} (h : P a) : Ensures I P (Pure.pure a : StateM σ α) :=
  fun _ hs => ⟨h, hs⟩

theorem bind {x : StateM σ α} {f : α → StateM σ β} (hx : Ensures I P x)
    (hf : ∀ a, P a → Ensures I R (f a)) : Ensures I R (x >>= f) := by
  intro s hs
  obtain ⟨ha, hs'⟩ := hx s hs
  exact hf _ ha _ hs'

theorem mono {x : StateM σ α} (hx : Ensures I P x) (h : ∀ a, P a → Q a) : Ensures I Q x :=
  fun s hs => ⟨h _ (hx s hs).1, (hx s hs).2⟩

/-- The last step of an action. -/
theorem map {x : StateM σ α} {f : α → β} (hx : Ensures I P x) (h : ∀ a, P a → R (f a)) :
    Ensures I R (f <$> x) :=
  fun s hs => ⟨h _ (hx s hs).1, (hx s hs).2⟩

end Ensures

namespace Emission

/-- What comes behind an action, from the result of that action. -/
theorem bind_eq {α β : Type} {x : Emit α} {f : α → Emit β} {s : State} {a : α}
    (h : (x s).1 = a) : (x >>= f) s = f a (x s).2 := by
  subst h
  rfl

/-- All that a lookup does to the state is to note the name in the innermost `with`. -/
theorem lookup_eq (name : String) (s : State) :
    lookup name s = (s.scope.resolve name,
      match s.scope.resolve name, s.captured with
      | .dynamic _, names :: rest => { s with captured := (name :: names) :: rest }
      | _, _ => s) := by
  rw [lookup, bind_eq (x := get) (a := s) rfl]
  cases s.scope.resolve name <;> cases s.captured <;> rfl

theorem lookup_control (name : String) (s : State) : (lookup name s).2.control = s.control := by
  rw [lookup_eq]
  simp only
  split <;> rfl

theorem lookup_supply (name : String) (s : State) : (lookup name s).2.supply = s.supply := by
  rw [lookup_eq]
  simp only
  split <;> rfl

/-- Noting locals changes the scope only. -/
theorem declareNew_eq (names : List String) (s : State) :
    (declareNew names s).2 = { s with scope := (declareNew names s).2.scope } := by
  induction names generalizing s with
  | nil => rfl
  | cons name rest ih => exact ih { s with scope := (s.scope.declare name).2 }

theorem mem_declareNew {names : List String} {s : State} {n : String}
    (h : n ∈ (declareNew names s).1) : n ∈ names := by
  induction names generalizing s with
  | nil => exact h
  | cons name rest ih =>
    have hcons : (declareNew (name :: rest) s).1 =
        if (s.scope.declare name).1
          then name :: (declareNew rest { s with scope := (s.scope.declare name).2 }).1
          else (declareNew rest { s with scope := (s.scope.declare name).2 }).1 := rfl
    rw [hcons] at h
    split at h
    · rcases List.mem_cons.mp h with rfl | h
      · exact List.mem_cons_self
      · exact List.mem_cons_of_mem _ (ih h)
    · exact List.mem_cons_of_mem _ (ih h)

/-- The code of a jump; one that has no spelling is reported. -/
def jumpCode (note : String) (blocked missing : Finding) : Jump → Emit (List Stat)
  | .leave => pure [.breakLoop]
  | .goTo name => pure [.goTo name]
  | .blocked => do
    report blocked
    pure [.note note]
  | .missing => do
    report missing
    pure [.note note]

theorem breakCode_eq (label : Option String) (span : Span) (s : State) :
    breakCode label span s =
      jumpCode "BreakStatement" (.blockedBreak span) (.strayBreak span)
        (s.control.breakJump label) s := by
  change (match s.control.breakJump label with
    | .leave => _
    | .goTo name => _
    | .blocked => _
    | .missing => _ : Emit (List Stat)) s = _
  cases s.control.breakJump label <;> rfl

theorem continueCode_eq (label : Option String) (span : Span) (s : State) :
    continueCode label span s =
      jumpCode "ContinueStatement" (.blockedContinue span) (.strayContinue span)
        (s.control.continueJump label s.supply).1
        { s with
          control := (s.control.continueJump label s.supply).2.1
          supply := (s.control.continueJump label s.supply).2.2 } := by
  change (match (s.control.continueJump label s.supply).1 with
    | .leave => _
    | .goTo name => _
    | .blocked => _
    | .missing => _ : Emit (List Stat)) _ = _
  cases (s.control.continueJump label s.supply).1 <;> rfl

/-- The condition of a loop; one without a test goes on. -/
def conditionOpt : Option Rendition → Emit Lua.Expr
  | none => pure (.bool true)
  | some test => condition test

theorem forCode_eq (labels : List String) (init : Emit (List Stat)) (test : Option Rendition)
    (update body : Emit (List Stat)) :
    forCode labels init test update body = (do
      let start ← init
      let c ← conditionOpt test
      let code ← loopBody labels body
      let step ← update
      pure (start ++ [.whileLoop c (code ++ step)])) := by
  cases test <;> rfl

/-- The comment about the `catch` clauses that are not used. -/
def clauseNotes (clauses : Nat) (span : Span) : Emit (List Stat) :=
  if clauses ≤ 1 then pure []
  else do
    report (.manyCatches clauses span)
    pure [.note "MultipleCatchClauses"]

/-- A part that may be missing. -/
def optional {α : Type} : Option (Emit α) → Emit (Option α)
  | none => pure none
  | some act => some <$> act

theorem tryCode_eq (span : Span) (body : Emit (List Stat)) (clauses : Nat)
    (handler : Option (Emit (List String × List Stat)))
    (finalizer : Option (Emit (List Stat))) :
    tryCode span body clauses handler finalizer = (do
      let status ← fresh "__TryStatus"
      let value ← fresh "__TryReturnValue"
      let catchValue ← fresh "__CatchReturnValue"
      let finalizerName ← fresh "__TryFinalizer"
      let handlerName ← fresh "__TryHandler"
      let notes ← clauseNotes clauses span
      let code ← walled body
      let final ← optional (finalizer.map walled)
      let caught ← optional handler
      pure (notes ++ [.doBlock (tryPhases
        ⟨status, value, catchValue, finalizerName, handlerName⟩ code final caught)])) := by
  unfold tryCode clauseNotes
  cases finalizer <;> cases handler <;> by_cases h : clauses ≤ 1 <;>
    simp only [h, if_true, if_false] <;> rfl

end Emission

/-- An item of an array; a hole is nil. -/
def Emission.itemCode (item : Option Expr) : Emit Lua.Expr :=
  match Expr.emitOpt item with
  | none => pure .nil
  | some e => e.value

theorem Expr.emitItems_cons (index : Nat) (item : Option Expr) (rest : List (Option Expr)) :
    Expr.emitItems index (item :: rest) = (do
      let value ← itemCode item
      pure (.keyed (.int index) value :: (← Expr.emitItems (index + 1) rest))) := by
  cases item <;> simp only [Expr.emitItems, itemCode, Expr.emitOpt]

/-- The assignment of a variable's first value, if it has one. -/
def Emission.initCode (name : String) (init : Option Expr) : Emit (List Stat) :=
  match Expr.emitOpt init with
  | none => pure []
  | some e => initialized name e.value

theorem Declarator.emit_cons (name : String) (init : Option Expr) (rest : List Declarator) :
    Declarator.emit (⟨name, init⟩ :: rest) = (do
      let code ← initCode name init
      pure (code ++ (← Declarator.emit rest))) := by
  cases init <;> simp only [Declarator.emit, initCode, Expr.emitOpt]

/-- The arm of a case; the default case has none. -/
def Emission.armCode (n : Nat) (test : Option Expr) (value selected : String) :
    Emit (List Lua.Arm) :=
  match Expr.emitOpt test with
  | none => pure []
  | some e => do pure [caseArm value selected n (← e.value)]

theorem SwitchCase.emitArms_cons (n : Nat) (test : Option Expr) (body : List Stmt)
    (rest : List SwitchCase) (value selected : String) :
    SwitchCase.emitArms n (⟨test, body⟩ :: rest) value selected = (do
      let arm ← armCode n test value selected
      pure (arm ++ (← SwitchCase.emitArms (n + 1) rest value selected))) := by
  cases test <;> simp only [SwitchCase.emitArms, armCode, Expr.emitOpt]
  rfl

end EcmaLua
