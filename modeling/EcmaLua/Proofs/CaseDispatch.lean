import EcmaLua.Proofs.Emission.Actions
import EcmaLua.Proofs.Emission.Landing
import EcmaLua.Proofs.Execution.Dispatch

/-!
# Dispatch of cases

The code of a `switch` statement evaluates the discriminant once, compares it with the tests in
order up to the first match, and runs the bodies from there on, or from the default case on if there
is none, up to a bare `break`. It keeps the value and the number of the chosen case in two locals
with made-up names, and a case that assigns to a variable of such a name can stop the cases behind
it.
-/

namespace EcmaLua

open Emission

namespace Dispatch

/-- The codes of the tests, made one after the other. -/
def caseTests : List SwitchCase → Emit (List (Option Lua.Expr))
  | [] => pure []
  | ⟨test, _⟩ :: rest => do
    let code ← optional ((Expr.emitOpt test).map Rendition.value)
    pure (code :: (← caseTests rest))

/-- The codes of the bodies, made one after the other. -/
def caseBodies : List SwitchCase → Emit (List (List Lua.Stat))
  | [] => pure []
  | ⟨_, body⟩ :: rest => do
    let code ← Stmt.emitList body
    pure (code :: (← caseBodies rest))

/-- The parts of a `switch` statement; a bare `break` in a body is meant for the statement. -/
def switchParts (discriminant : Expr) (cases : List SwitchCase) : Emit Parts := do
  let value ← fresh "__tmp"
  let selected ← fresh "__tmp"
  let d ← discriminant.emit.value
  let tests ← caseTests cases
  let (bodies, _) ← enclosed .switch (caseBodies cases)
  pure ⟨value, selected, d, List.zipWith Case.mk tests bodies⟩

theorem emitArms_eq (n : Nat) (cases : List SwitchCase) (value selected : String) :
    SwitchCase.emitArms n cases value selected = (do
      let tests ← caseTests cases
      pure (armsOf value selected n tests)) := by
  induction cases generalizing n with
  | nil => rfl
  | cons c rest ih =>
    obtain ⟨_ | test, body⟩ := c
    · rw [SwitchCase.emitArms_cons, ih]
      rfl
    · rw [SwitchCase.emitArms_cons, ih]
      rfl

theorem length_caseBodies (cases : List SwitchCase) (s : State) :
    (caseBodies cases s).1.length = cases.length := by
  induction cases generalizing s with
  | nil => rfl
  | cons c rest ih =>
    obtain ⟨test, body⟩ := c
    exact congrArg (· + 1) (ih _)

/-- Exactly the default cases have no code for a test. -/
theorem map_isNone_caseTests (cases : List SwitchCase) (s : State) :
    (caseTests cases s).1.map Option.isNone = cases.map fun c => c.test.isNone := by
  induction cases generalizing s with
  | nil => rfl
  | cons c rest ih =>
    obtain ⟨_ | test, body⟩ := c
    · exact congrArg (true :: ·) (ih _)
    · exact congrArg (false :: ·) (ih _)

theorem guarded_emitBodies (selected : String) (n : Nat) (cases : List SwitchCase)
    {tests : List (Option Lua.Expr)} (h : tests.length = cases.length) (s : State) :
    Guarded selected n (List.zipWith Case.mk tests (caseBodies cases s).1)
      (SwitchCase.emitBodies n cases selected s).1 := by
  induction cases generalizing n tests s with
  | nil =>
    rw [List.length_eq_zero_iff.mp h]
    exact .nil n
  | cons c rest ih =>
    obtain ⟨test, tests, rfl⟩ := List.exists_cons_of_length_eq_add_one h
    have hrest := ih (n + 1) (Nat.succ.inj h) (Stmt.emitList c.body s).2
    obtain ⟨_, _ | ⟨first, body⟩⟩ := c
    · exact .empty hrest
    · exact .body hrest

theorem map_test_zipWith {tests : List (Option Lua.Expr)} {bodies : List (List Lua.Stat)}
    (h : tests.length ≤ bodies.length) :
    (List.zipWith Case.mk tests bodies).map Case.test = tests := by
  have hzip : (List.zipWith Case.mk tests bodies).map Case.test =
      (tests.zip bodies).map Prod.fst := by
    rw [List.zip, List.map_zipWith, List.map_zipWith]
  exact hzip.trans (List.map_fst_zip h)

theorem length_caseTests (cases : List SwitchCase) (s : State) :
    (caseTests cases s).1.length = cases.length := by
  have h := congrArg List.length (map_isNone_caseTests cases s)
  rwa [List.length_map, List.length_map] at h

section Switch

variable (discriminant : Expr) (cases : List SwitchCase) (s : State)

theorem value_ne_selected :
    (switchParts discriminant cases s).1.value ≠ (switchParts discriminant cases s).1.selected :=
  fun h => absurd (numbered_injective "__tmp" h) (Nat.succ_ne_self _).symm

/-- Where the tests are made: behind the discriminant. -/
def atTests : State :=
  (discriminant.emit.value { s with supply := ⟨s.supply.last + 1 + 1⟩ }).2

theorem map_test_switchParts :
    (switchParts discriminant cases s).1.cases.map Case.test =
      (caseTests cases (atTests discriminant s)).1 :=
  map_test_zipWith
    (Nat.le_of_eq ((length_caseTests cases _).trans (length_caseBodies cases _).symm))

/-- There is a part for each case, with the default case at its place. -/
theorem map_isNone_switchParts :
    (switchParts discriminant cases s).1.cases.map (fun c => c.test.isNone) =
      cases.map fun c => c.test.isNone := by
  rw [← map_isNone_caseTests cases (atTests discriminant s), ← map_test_switchParts, List.map_map]
  rfl

/-- The code of a `switch` statement is the scaffold around its parts. -/
theorem switchCode_eq :
    ∃ code, Guarded (switchParts discriminant cases s).1.selected 1
        (switchParts discriminant cases s).1.cases code ∧
      (switchCode discriminant.emit (SwitchCase.emitArms 1 cases)
        ((cases.findIdx? fun c => c.test.isNone).map (· + 1))
        (SwitchCase.emitBodies 1 cases) s).1 =
        [scaffold (switchParts discriminant cases s).1 code] := by
  have hdefault : ((switchParts discriminant cases s).1.cases.findIdx? fun c => c.test.isNone) =
      cases.findIdx? fun c => c.test.isNone := by
    have h := congrArg (List.findIdx? id) (map_isNone_switchParts discriminant cases s)
    rwa [List.findIdx?_map, List.findIdx?_map] at h
  let t := (caseTests cases (atTests discriminant s)).2
  refine ⟨_, guarded_emitBodies _ 1 cases (length_caseTests cases (atTests discriminant s))
    { t with control := .switch :: t.control }, ?_⟩
  rw [scaffold, hdefault, map_test_switchParts, switchCode]
  simp only [emitArms_eq]
  rfl

end Switch

/-- The state inside labeled statements, outermost first. -/
def inside : List String → State → State
  | [], s => s
  | label :: rest, s => inside rest { s with control := .labeled label :: s.control }

theorem labeledCode_fst (labels : List String) (act : Emit (List Lua.Stat)) (s : State) :
    (labeledCode labels act s).1 = nested labels (act (inside labels s)).1 := by
  have hlabeled (s : State) : (labeled labels act s).1 = (act (inside labels s)).1 := by
    induction labels generalizing s with
    | nil => rfl
    | cons label rest ih => exact ih _
  exact congrArg (nested labels) (hlabeled s)

theorem breakJump_inside (labels : List String) {s : State}
    (h : s.control.breakJump none = .leave) :
    (inside labels s).control.breakJump none = .leave := by
  induction labels generalizing s with
  | nil => exact h
  | cons label rest ih => exact ih h

/-- A `break` for the nearest loop or `switch` leaves it. -/
theorem walk_breakStmt {H : Host} {s : State} (h : s.control.breakJump none = .leave) (span : Span)
    (place : Place) :
    walk (H := H) ((Stmt.breakStmt none span).emit place s).1 none = pure .leave := by
  change walk (labeledCode place.labels (breakCode none span) s).1 none = _
  rw [labeledCode_fst, breakCode_eq, breakJump_inside place.labels h, walk_nested]
  rfl

end Dispatch

open Dispatch

/-- A `switch` statement runs its cases as `dispatch` says, whatever the outcomes of the comparisons
are, if no case assigns to a local of the statement that is still needed. There is a part for each
case, and a bare `break` in a body, with nothing but labels between it and the statement, leaves
the statement. -/
theorem Stmt.walk_switchStmt (H : Host) (discriminant : Expr) (cases : List SwitchCase)
    (place : Place) (s : State) :
    let parts := (switchParts discriminant cases (inside place.labels s)).1
    (parts.cases.map fun c => c.test.isNone) = (cases.map fun c => c.test.isNone) ∧
    (Undisturbed H parts →
      walk (H := H) ((Stmt.switchStmt discriminant cases).emit place s).1 none =
        dispatch parts >>= fun e => pure (e.landed (place.labels.map afterLabel))) ∧
    ∀ (labels : List String) (t : State) (span : Span) (place : Place),
      walk (H := H) ((Stmt.breakStmt none span).emit place
        (inside labels { t with control := .switch :: t.control })).1 none = pure .leave := by
  intro parts
  refine ⟨map_isNone_switchParts .., fun h => ?_, fun labels t span place => ?_⟩
  · obtain ⟨code, hcode, heq⟩ := switchCode_eq discriminant cases (inside place.labels s)
    change walk (labeledCode place.labels (switchCode discriminant.emit _ _ _) s).1 none = _
    rw [labeledCode_fst, heq, walk_nested, walk_scaffold (value_ne_selected _ _ _) h hcode]
  · exact walk_breakStmt (breakJump_inside labels rfl) span place

/-- A host that records the statements it performs, with the values of its expressions given. -/
def recorder (value : Lua.Expr → Protection.Value) : Host where
  World := List Lua.Stat
  value e m := (.ok (value e), m)
  operate _ _ _ m := (.ok .nil, m)
  perform s m := (.ok .normal, { m with world := m.world ++ [s] })
  equal a b := decide (a = b)

/-- `switch (x) { case a: f(); default: g(); case b: h(); break; case c: k(); }` -/
def defaultAmidst : List SwitchCase :=
  [⟨some (.ident "a"), [.exprStmt (.call (.ident "f") [])]⟩,
    ⟨none, [.exprStmt (.call (.ident "g") [])]⟩,
    ⟨some (.ident "b"), [.exprStmt (.call (.ident "h") []), .breakStmt none .nowhere]⟩,
    ⟨some (.ident "c"), [.exprStmt (.call (.ident "k") [])]⟩]

/-- No test matches: the default case runs, falls through into the next one, and stops there. -/
theorem defaultAmidst_runs :
    let H := recorder fun | .read "x" => .int 1 | _ => .int 0
    let parts := (switchParts (.ident "x") defaultAmidst {}).1
    let code := ((Stmt.switchStmt (.ident "x") defaultAmidst).emit (.statement []) {}).1
    let run := walk (H := H) code none ⟨fun _ => .nil, []⟩
    Undisturbed H parts ∧ run.1 = .ok .normal ∧
      run.2.world = [.call (.call (.read "g") []), .call (.call (.read "h") [])] := by
  intro H parts code run
  have hcases : parts.cases =
      [⟨some (.read "a"), [.call (.call (.read "f") [])]⟩,
        ⟨none, [.call (.call (.read "g") [])]⟩,
        ⟨some (.read "b"), [.call (.call (.read "h") []), .breakLoop]⟩,
        ⟨some (.read "c"), [.call (.call (.read "k") [])]⟩] := rfl
  have h : Undisturbed H parts := by
    constructor
    · simp only [hcases, List.forall_mem_cons, List.not_mem_nil, false_imp_iff, implies_true,
        and_true, true_and, Option.mem_def, reduceCtorEq, Option.some.injEq, forall_eq']
      exact ⟨⟨fun _ => rfl, fun _ => rfl⟩, ⟨fun _ => rfl, fun _ => rfl⟩, fun _ => rfl, fun _ => rfl⟩
    · simp only [hcases, List.forall_mem_cons, List.not_mem_nil, false_imp_iff, implies_true,
        and_true]
      exact ⟨fun _ => rfl, fun _ => rfl, fun _ => rfl, fun _ => rfl⟩
  have hrun : run = _ :=
    congrFun ((Stmt.walk_switchStmt H (.ident "x") defaultAmidst (.statement []) {}).2.1 h) _
  rw [hrun]
  exact ⟨h, rfl, rfl⟩

/-- `switch (x) { case 1: __tmp2 = 0; case 2: f(); }` -/
def overwritingSelected : List SwitchCase :=
  [⟨some (.lit (.number ⟨0x3FF0000000000000⟩)),
      [.exprStmt (.assign none (.ident "__tmp2") (.lit (.number ⟨0⟩)))]⟩,
    ⟨some (.lit (.number ⟨0x4000000000000000⟩)), [.exprStmt (.call (.ident "f") [])]⟩]

/-- The first case matches, but the second one is not entered: the first has assigned to the local
that holds its number. -/
theorem overwritingSelected_stops :
    let H := recorder fun
      | .number x => if x = ⟨0⟩ then .int 0 else .number x
      | _ => .number ⟨0x3FF0000000000000⟩
    let parts := (switchParts (.ident "x") overwritingSelected {}).1
    let code := ((Stmt.switchStmt (.ident "x") overwritingSelected).emit (.statement []) {}).1
    let m : Memory H.World := ⟨fun _ => .nil, []⟩
    (walk (H := H) code none m).2.world = [] ∧
      (dispatch (H := H) parts m).2.world = [.call (.call (.read "f") [])] :=
  ⟨rfl, rfl⟩

end EcmaLua
