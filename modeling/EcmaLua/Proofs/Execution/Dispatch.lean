import Mathlib.Logic.Function.Basic
import Mathlib.Tactic.Common
import EcmaLua.Emission.Construct
import EcmaLua.Proofs.Execution.Protection

/-!
# Running the scaffold of a selection

How Lua runs the code around the cases of a `switch` statement: variables are known by their names
and can be assigned to, blocks are left by `break`, by a jump to a label behind them or by `return`,
and the value of `rawequal` decides between arms. What other expressions and statements do, loops
and calls among them, is up to a host; a `break` in a loop of the host stays there.

Next to it stands how a list of cases is meant to run: the tests are compared one after the other up
to the first match, and the bodies run from there on, or from the default case, up to one that does
not fall through. The scaffold runs its cases in this way, unless one of them assigns to a variable
of the scaffold.
-/

namespace EcmaLua.Dispatch

open Emission
open Lua (Helper Stat)
open Protection (Value first)

/-- How code ends. -/
inductive Ending where
  | normal
  /-- a `break` for the nearest loop -/
  | leave
  | jump (label : String)
  | ret (v : Value)
deriving DecidableEq, Repr

namespace Ending

/-- The end of a loop after its only round: a `break` for it has done its work. -/
def outOfLoop : Ending → Ending
  | .leave => .normal
  | e => e

/-- The end of blocks with the labels behind their code: a jump to one of them has arrived. -/
def landed (labels : List String) : Ending → Ending
  | .jump label => if label ∈ labels then .normal else .jump label
  | e => e

end Ending

/-- What running code can change: the variables and the rest of the world. -/
structure Memory (W : Type) where
  vars : String → Value
  world : W

/-- The behaviour of everything that is not part of the scaffold. -/
structure Host where
  World : Type
  value : Lua.Expr → Memory World → Except Value Value × Memory World
  operate : Lua.BinOp → Value → Value → Memory World → Except Value Value × Memory World
  perform : Stat → Memory World → Except Value Ending × Memory World
  /-- the answers of `rawequal` -/
  equal : Value → Value → Bool

/-- A computation that gives a result or raises a value. -/
abbrev Run (H : Host) (α : Type) := ExceptT Value (StateM (Memory H.World)) α

variable {H : Host} {α β : Type}

theorem Run.bind_apply (x : Run H α) (f : α → Run H β) (m : Memory H.World) :
    (x >>= f) m = match x m with
      | (.ok a, m') => f a m'
      | (.error v, m') => (.error v, m') := by
  change ExceptT.bindCont f (x m).1 (x m).2 = _
  rcases x m with ⟨_ | _, _⟩ <;> rfl

/-- What comes next agrees on every result that there is. -/
theorem Run.bind_congr {x : Run H α} {f g : α → Run H β} {m : Memory H.World}
    (h : ∀ a m', x m = (.ok a, m') → f a m' = g a m') : (x >>= f) m = (x >>= g) m := by
  rw [Run.bind_apply, Run.bind_apply]
  rcases hx : x m with ⟨e | a, m'⟩
  · rfl
  · exact h a m' hx

theorem Run.bind_eq {x y : Run H α} (f : α → Run H β) {m : Memory H.World} (h : x m = y m) :
    (x >>= f) m = (y >>= f) m := by
  rw [Run.bind_apply, Run.bind_apply, h]

def load (x : String) : Run H Value := fun m => (.ok (m.vars x), m)

def store (x : String) (v : Value) : Run H Unit := fun m =>
  (.ok (), { m with vars := Function.update m.vars x v })

/-- The value of an operation; of two whole numbers the scaffold knows it. -/
def operate (op : Lua.BinOp) (a b : Value) : Run H Value :=
  match op, a, b with
  | .ne, .int a, .int b => pure (.bool (a != b))
  | .le, .int a, .int b => pure (.bool (decide (a ≤ b)))
  | op, a, b => H.operate op a b

mutual

/-- The value of an expression. -/
@[simp] def eval : Lua.Expr → Run H Value
  | .bool b => pure (.bool b)
  | .int n => pure (.int n)
  | .name x => load x
  | .binop .and left right => do
    let v ← eval left
    if v.truth then eval right else pure v
  | .binop .or left right => do
    let v ← eval left
    if v.truth then pure v else eval right
  | .binop op left right => do
    let a ← eval left
    operate op a (← eval right)
  | .call (.name "rawequal") args => do
    let values ← evalArgs args
    pure (.bool (H.equal (first values) (first values.tail)))
  | e => H.value e

@[simp] def evalArgs : List Lua.Expr → Run H (List Value)
  | [] => pure []
  | e :: rest => do
    let v ← eval e
    pure (v :: (← evalArgs rest))

end

/-- Perform a step of a selection. -/
def perform : Lua.Step → Run H Unit
  | .define x e => do store x (← eval e)
  | .assign (.name x) e => do store x (← eval e)
  | .assign target e => do
    let _ ← (H.perform (.assign target e) : Run H Ending)

/-- Perform the step of the first arm whose condition holds. -/
def pick : List Lua.Arm → Option Lua.Step → Run H Unit
  | [], none => pure ()
  | [], some step => perform step
  | .mk cond step :: rest, otherwise => do
    if (← eval cond).truth then perform step else pick rest otherwise

/-- Go on behind a statement, with the label that is sought if there is one. -/
def Ending.next (e : Ending) (rest : Option String → Run H Ending) : Run H Ending :=
  match e with
  | .normal => rest none
  | .jump label => rest (some label)
  | .leave => pure .leave
  | .ret v => pure (.ret v)

mutual

/-- Run a statement. -/
@[simp] def exec : Stat → Run H Ending
  | .note _ | .marker _ | .label _ => pure .normal
  | .define [x] e | .assign (.name x) e => do
    store x (← eval e)
    pure .normal
  | .doBlock body => walk body none
  | .scoped proxy object body => do
    store proxy (← eval object)
    walk body none
  | .repeatUntil body (.bool true) => do pure (← walk body none).outOfLoop
  | .ifThen cond body tail => do
    if (← eval cond).truth then walk body none else execTail tail
  | .select arms otherwise => do
    pick arms otherwise
    pure .normal
  | .goTo label => pure (.jump label)
  | .breakLoop => pure .leave
  | .ret e => do pure (.ret (← eval e))
  | s => do pure (← (H.perform s : Run H Ending)).outOfLoop

@[simp] def execTail : Lua.Tail → Run H Ending
  | .none => pure .normal
  | .otherwise body => walk body none
  | .elseif cond body tail => do
    if (← eval cond).truth then walk body none else execTail tail

/-- Go through a block; while a label is sought, everything before it is passed over. -/
@[simp] def walk : List Stat → Option String → Run H Ending
  | [], none => pure .normal
  | [], some label => pure (.jump label)
  | s :: rest, none => do (← exec s).next (walk rest)
  | .label name :: rest, some label =>
    if name = label then walk rest none else walk rest (some label)
  | _ :: rest, some label => walk rest (some label)

end

/-- A case: its test, which the default case lacks, and the code of its body. -/
structure Case where
  test : Option Lua.Expr
  body : List Stat

/-- Compare the value with the tests, up to the first that is equal to it. -/
def firstMatch (v : Value) : List Case → Run H (Option Nat)
  | [] => pure none
  | ⟨none, _⟩ :: rest => do pure ((← firstMatch v rest).map (· + 1))
  | ⟨some test, _⟩ :: rest => do
    if H.equal v (← eval test) then pure (some 0)
    else pure ((← firstMatch v rest).map (· + 1))

/-- Run the bodies one after the other, up to one that does not fall through. -/
def fallThrough : List Case → Run H Ending
  | [] => pure .normal
  | c :: rest => do
    match ← walk c.body none with
    | .normal => fallThrough rest
    | e => pure e

/-- What the scaffold is put around: the names of its two variables, for the value and for the
number of the chosen case, and the codes of the discriminant and of the cases. -/
structure Parts where
  value : String
  selected : String
  discriminant : Lua.Expr
  cases : List Case

/-- How the cases are meant to run: from the first match on, or else from the default case on, up to
a `break`. -/
def dispatch (p : Parts) : Run H Ending := do
  let v ← eval p.discriminant
  store p.value v
  store p.selected (.int 0)
  match (← firstMatch v p.cases).or (p.cases.findIdx? fun c => c.test.isNone) with
  | none => pure .normal
  | some i => do
    store p.selected (.int (i + 1))
    pure (← fallThrough (p.cases.drop i)).outOfLoop

/-- The computation does not change the variable. -/
def Keeps (x : String) (act : Run H α) : Prop := ∀ m, (act m).2.vars x = m.vars x

namespace Keeps

variable {x : String}

theorem pure (a : α) : Keeps x (Pure.pure a : Run H α) := fun _ => rfl

theorem bind {act : Run H α} {f : α → Run H β} (h : Keeps x act) (hf : ∀ a, Keeps x (f a)) :
    Keeps x (act >>= f) := by
  intro m
  have hm := h m
  rw [Run.bind_apply]
  rcases hact : act m with ⟨e | a, m'⟩ <;> rw [hact] at hm
  · exact hm
  · exact (hf a m').trans hm

theorem firstMatch {cases : List Case} {v : Value}
    (h : ∀ c ∈ cases, ∀ test ∈ c.test, Keeps (H := H) x (eval test)) :
    Keeps (H := H) x (firstMatch v cases) := by
  induction cases with
  | nil => exact .pure none
  | cons c rest ih =>
    obtain ⟨hc, hrest⟩ := List.forall_mem_cons.mp h
    have htail : Keeps (H := H) x
        (Dispatch.firstMatch v rest >>= fun i => Pure.pure (i.map (· + 1))) :=
      (ih hrest).bind fun _ => .pure _
    obtain ⟨_ | test, body⟩ := c
    · exact htail
    · refine (hc test rfl).bind fun a => ?_
      split
      · exact .pure _
      · exact htail

end Keeps

/-- No case assigns to a variable of the scaffold that is still needed. -/
structure Undisturbed (H : Host) (p : Parts) : Prop where
  tests : ∀ c ∈ p.cases, ∀ test ∈ c.test,
    Keeps (H := H) p.value (eval test) ∧ Keeps (H := H) p.selected (eval test)
  bodies : ∀ c ∈ p.cases, Keeps (H := H) p.selected (walk c.body none)

section Scaffold

variable {value selected : String} {v : Value} {m : Memory H.World}

/-- The arms of the tests from the number `n` on. -/
def armsOf (value selected : String) : Nat → List (Option Lua.Expr) → List Lua.Arm
  | _, [] => []
  | n, none :: rest => armsOf value selected (n + 1) rest
  | n, some test :: rest => caseArm value selected n test :: armsOf value selected (n + 1) rest

/-- The bodies of the cases from the number `n` on, of which empty ones can be left out. -/
inductive Guarded (selected : String) : Nat → List Case → List Stat → Prop
  | nil (n : Nat) : Guarded selected n [] []
  | empty {n : Nat} {test : Option Lua.Expr} {rest : List Case} {code : List Stat}
      (h : Guarded selected (n + 1) rest code) : Guarded selected n (⟨test, []⟩ :: rest) code
  | body {n : Nat} {test : Option Lua.Expr} {body : List Stat} {rest : List Case}
      {code : List Stat} (h : Guarded selected (n + 1) rest code) :
      Guarded selected n (⟨test, body⟩ :: rest) (caseBody selected n body :: code)

/-- The condition of an arm compares the value with the test. -/
theorem eval_caseArm (h : m.vars value = v) (test : Lua.Expr) :
    eval (H := H) (Helper.rawEqual.call [.name value, test]) m =
      (eval test >>= fun a => pure (.bool (H.equal v a)) : Run H Value) m := by
  change (eval (.call (.name "rawequal") [.name value, test]) : Run H Value) m = _
  simp only [eval, evalArgs, bind_assoc, pure_bind]
  rw [Run.bind_apply]
  change (eval test >>= fun a => pure (.bool (H.equal (m.vars value) a)) : Run H Value) m = _
  rw [h]

/-- The arms choose the case that matches first. -/
theorem pick_armsOf (otherwise : Option Lua.Step) {cases : List Case}
    (hkeeps : ∀ c ∈ cases, ∀ test ∈ c.test, Keeps (H := H) value (eval test)) (n : Nat)
    (h : m.vars value = v) :
    pick (H := H) (armsOf value selected n (cases.map Case.test)) otherwise m =
      (firstMatch v cases >>= fun
        | some i => store selected (.int (i + n))
        | none => pick [] otherwise : Run H Unit) m := by
  induction cases generalizing n m with
  | nil => rfl
  | cons c rest ih =>
    obtain ⟨hc, hrest⟩ := List.forall_mem_cons.mp hkeeps
    have hshift (m : Memory H.World) (hm : m.vars value = v) :
        pick (H := H) (armsOf value selected (n + 1) (rest.map Case.test)) otherwise m =
          ((firstMatch v rest >>= fun i => pure (i.map (· + 1))) >>= fun
            | some i => store selected (.int (i + n))
            | none => pick [] otherwise : Run H Unit) m := by
      rw [ih hrest (n + 1) hm, bind_assoc]
      refine Run.bind_congr fun i m' _ => ?_
      cases i with
      | none => rfl
      | some i =>
        exact congrArg (fun k => store (H := H) selected (.int k) m') (Nat.add_right_comm i n 1)
    obtain ⟨_ | test, body⟩ := c
    · exact hshift m h
    · rw [List.map_cons, armsOf, caseArm, pick, firstMatch, Run.bind_eq _ (eval_caseArm h test),
        bind_assoc, bind_assoc]
      refine Run.bind_congr fun a m' hm' => ?_
      have hvalue : m'.vars value = v := by
        have hkept := hc test rfl m
        rw [hm'] at hkept
        exact hkept.trans h
      rw [pure_bind]
      cases hequal : H.equal v a with
      | true =>
        exact congrArg (fun k => store (H := H) selected (.int k) m') (Nat.zero_add n).symm
      | false => exact hshift m' hvalue

/-- Whatever form a selection has, it performs the step that is picked. -/
theorem walk_selection (arms : List Lua.Arm) (default : Option Nat) (code : List Stat) :
    walk (H := H) (selection selected arms default ++ code) none =
      (pick arms (default.map fun n => .assign (.name selected) (.int n)) >>= fun _ =>
        walk code none) := by
  cases arms with
  | nil =>
    cases default with
    | none => rfl
    | some n => rfl
  | cons arm rest =>
    change walk (.select (arm :: rest) _ :: code) none = _
    rw [walk, exec, bind_assoc]
    rfl

/-- A body runs if a case up to it was chosen. -/
theorem exec_caseBody {k : Nat} (h : m.vars selected = .int k) (n : Nat) (body : List Stat) :
    exec (H := H) (caseBody selected n body) m =
      if k ≠ 0 ∧ k ≤ n then walk body none m else (.ok .normal, m) := by
  have hne : eval (H := H) (.binop .ne (.name selected) (.int 0)) m =
      (.ok (.bool (k != 0)), m) := by
    change operate .ne (m.vars selected) (.int 0) m = _
    rw [h]
    rfl
  have hle : eval (H := H) (.binop .le (.name selected) (.int n)) m =
      (.ok (.bool (decide (k ≤ n))), m) := by
    change operate .le (m.vars selected) (.int n) m = _
    rw [h]
    rfl
  have hcond : eval (H := H) (.binop .and (.binop .ne (.name selected) (.int 0))
      (.binop .le (.name selected) (.int n))) m = (.ok (.bool (decide (k ≠ 0 ∧ k ≤ n))), m) := by
    rw [eval, Run.bind_apply, hne]
    by_cases hk : k = 0
    · subst hk
      rfl
    · have htrue : (k != 0) = true := bne_iff_ne.mpr hk
      simp only [htrue, ne_eq, hk, not_false_eq_true, true_and]
      exact hle
  rw [caseBody, exec, Run.bind_apply, hcond]
  by_cases hgo : k ≠ 0 ∧ k ≤ n
  · rw [if_pos hgo, decide_eq_true hgo]
    rfl
  · rw [if_neg hgo, decide_eq_false hgo]
    rfl

/-- If no case was chosen, no body runs. -/
theorem Guarded.walk_zero {n : Nat} {cases : List Case} {code : List Stat}
    (hcode : Guarded selected n cases code) (h : m.vars selected = .int 0) :
    walk (H := H) code none m = (.ok .normal, m) := by
  induction hcode with
  | nil => rfl
  | empty _ ih => exact ih
  | body _ ih =>
    rw [Dispatch.walk, Run.bind_apply, exec_caseBody h, if_neg (by simp)]
    exact ih

/-- Bodies have no labels among them. -/
theorem Guarded.walk_sought {n : Nat} {cases : List Case} {code : List Stat}
    (hcode : Guarded selected n cases code) (label : String) :
    walk (H := H) code (some label) = pure (.jump label) := by
  induction hcode with
  | nil => rfl
  | empty _ ih => exact ih
  | body _ ih => exact ih

/-- The bodies run from the chosen case on. -/
theorem Guarded.walk_chosen {n k : Nat} {cases : List Case} {code : List Stat}
    (hcode : Guarded selected n cases code)
    (hkeeps : ∀ c ∈ cases, Keeps (H := H) selected (walk c.body none)) (hk : k ≠ 0)
    (h : m.vars selected = .int k) :
    walk (H := H) code none m = fallThrough (cases.drop (k - n)) m := by
  induction hcode generalizing m with
  | nil n => rw [List.drop_nil]; rfl
  | @empty n test rest code hcode ih =>
    obtain ⟨-, hrest⟩ := List.forall_mem_cons.mp hkeeps
    rw [ih hrest h]
    by_cases hkn : k ≤ n
    · rw [Nat.sub_eq_zero_of_le hkn, Nat.sub_eq_zero_of_le (Nat.le_succ_of_le hkn)]
      rfl
    · rw [show k - n = k - (n + 1) + 1 by omega]
      rfl
  | @body n test body rest code hcode ih =>
    obtain ⟨hbody, hrest⟩ := List.forall_mem_cons.mp hkeeps
    rw [walk, Run.bind_apply, exec_caseBody h]
    by_cases hkn : k ≤ n
    · rw [if_pos ⟨hk, hkn⟩, Nat.sub_eq_zero_of_le hkn, List.drop_zero, fallThrough,
        Run.bind_apply]
      have hkept := hbody m
      rcases hrun : walk body none m with ⟨e | e, m'⟩
      · rfl
      · rw [hrun] at hkept
        cases e with
        | normal =>
          refine (ih hrest (hkept.trans h)).trans ?_
          rw [Nat.sub_eq_zero_of_le (Nat.le_succ_of_le hkn)]
          rfl
        | leave => rfl
        | jump label => exact congrFun (hcode.walk_sought label) m'
        | ret v => rfl
    · rw [if_neg fun hgo => hkn hgo.2, show k - n = k - (n + 1) + 1 by omega]
      exact ih hrest h

theorem walk_append (a b : List Stat) (sought : Option String) :
    walk (H := H) (a ++ b) sought = walk a sought >>= fun e => e.next (walk b) := by
  induction a generalizing sought with
  | nil => cases sought <;> rfl
  | cons s rest ih =>
    cases sought with
    | none =>
      rw [List.cons_append, walk, walk, bind_assoc]
      refine bind_congr fun e => ?_
      cases e with
      | normal => exact ih none
      | jump label => exact ih (some label)
      | leave => rfl
      | ret v => rfl
    | some label =>
      by_cases hs : ∃ name, s = .label name
      · obtain ⟨name, rfl⟩ := hs
        rw [List.cons_append, walk, walk]
        split
        · exact ih none
        · exact ih (some label)
      · have hname : ∀ name, s ≠ .label name := fun name h => hs ⟨name, h⟩
        rw [List.cons_append, walk, walk, ih (some label)]
        · exact hname
        · exact hname

theorem walk_singleton (s : Stat) : walk (H := H) [s] none = exec s := by
  rw [walk]
  conv_rhs => rw [← bind_pure (exec s)]
  refine bind_congr fun e => ?_
  cases e <;> rfl

/-- Labels behind the code catch the jumps to them. -/
theorem walk_nested (labels : List String) (code : List Stat) :
    walk (H := H) (nested labels code) none =
      walk code none >>= fun e => pure (e.landed (labels.map afterLabel)) := by
  induction labels with
  | nil =>
    change walk code none = _
    conv_lhs => rw [← bind_pure (walk code none)]
    refine bind_congr fun e => ?_
    cases e <;> rfl
  | cons label rest ih =>
    change walk [.doBlock (nested rest code ++ [.label (afterLabel label)])] none = _
    rw [walk_singleton, exec, walk_append, ih, bind_assoc]
    refine bind_congr fun e => ?_
    rw [pure_bind]
    cases e with
    | normal => rfl
    | leave => rfl
    | ret v => rfl
    | jump sought =>
      rw [Ending.landed, Ending.landed, List.map_cons]
      by_cases hrest : sought ∈ rest.map afterLabel
      · rw [if_pos hrest, if_pos (List.mem_cons_of_mem _ hrest)]
        rfl
      · rw [if_neg hrest, Ending.next, walk]
        by_cases hlabel : afterLabel label = sought
        · rw [if_pos hlabel, if_pos (List.mem_cons.mpr (Or.inl hlabel.symm))]
          rfl
        · rw [if_neg hlabel, if_neg (List.not_mem_cons_of_ne_of_not_mem (Ne.symm hlabel) hrest)]
          rfl

/-- The scaffold around the bodies. -/
def scaffold (p : Parts) (code : List Stat) : Stat :=
  .repeatUntil ([.define [p.value] p.discriminant, .define [p.selected] (.int 0)] ++
      selection p.selected (armsOf p.value p.selected 1 (p.cases.map Case.test))
        ((p.cases.findIdx? fun c => c.test.isNone).map (· + 1)) ++ code)
    (.bool true)

theorem exec_scaffold (p : Parts) (code : List Stat) :
    exec (H := H) (scaffold p code) = (do
      let v ← eval p.discriminant
      store p.value v
      store p.selected (.int 0)
      pick (armsOf p.value p.selected 1 (p.cases.map Case.test))
        ((p.cases.findIdx? fun c => c.test.isNone).map fun i =>
          .assign (.name p.selected) (.int (i + 1)))
      pure (← walk code none).outOfLoop) := by
  rw [scaffold, exec, List.append_assoc, List.cons_append, List.cons_append, List.nil_append]
  simp only [walk, exec, eval, Ending.next, walk_selection, Option.map_map, bind_assoc, pure_bind]
  rfl

/-- The scaffold runs the cases as they are meant to run. -/
theorem walk_scaffold {p : Parts} (hne : p.value ≠ p.selected) (h : Undisturbed H p)
    {code : List Stat} (hcode : Guarded p.selected 1 p.cases code) :
    walk (H := H) [scaffold p code] none = dispatch p := by
  -- once the number of a case is stored, the bodies run from there on
  have hchosen (i : Nat) (m : Memory H.World) :
      (store p.selected (.int (i + 1)) >>= fun _ => walk code none >>= fun e =>
          pure e.outOfLoop : Run H Ending) m =
        (store p.selected (.int (i + 1)) >>= fun _ => fallThrough (p.cases.drop i) >>= fun e =>
          pure e.outOfLoop : Run H Ending) m :=
    Run.bind_eq _ (hcode.walk_chosen h.bodies (Nat.succ_ne_zero i) (Function.update_self ..))
  funext m
  rw [walk_singleton, exec_scaffold, dispatch]
  refine Run.bind_congr fun v m₁ _ => ?_
  let m₂ : Memory H.World :=
    { m₁ with vars := Function.update (Function.update m₁.vars p.value v) p.selected (.int 0) }
  have hvalue : m₂.vars p.value = v := by
    simp only [m₂, Function.update_of_ne hne, Function.update_self]
  change (pick _ _ >>= _ : Run H Ending) m₂ = (firstMatch v p.cases >>= _ : Run H Ending) m₂
  rw [Run.bind_eq _ (pick_armsOf _ (fun c hc test ht => (h.tests c hc test ht).1) 1 hvalue),
    bind_assoc]
  refine Run.bind_congr fun found m₃ hfound => ?_
  cases found with
  | some i => exact hchosen i m₃
  | none =>
    cases p.cases.findIdx? fun c => c.test.isNone with
    | some i => exact hchosen i m₃
    | none =>
      have hkept := Keeps.firstMatch (H := H) (v := v)
        (fun c hc test ht => (h.tests c hc test ht).2) m₂
      rw [hfound] at hkept
      exact Run.bind_eq _ (hcode.walk_zero (hkept.trans (Function.update_self ..)))

end Scaffold

end EcmaLua.Dispatch
