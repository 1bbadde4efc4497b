import EcmaLua.Program.Basic
import EcmaLua.Proofs.Execution.Machine

/-!
# How a structured program runs

Statements with `break` and `continue`, bare or with a label, and expressions as opaque actions. A
loop goes round at most as often as the bound says. Jumps are legal when there is something for
them to leave or to continue.
-/

namespace EcmaLua

open Execution

/-- What a run evaluates. -/
inductive Evaluation where
  | effect (e : Expr)
  | test (e : Expr)

/-- How a statement completes. -/
inductive Completion where
  | normal
  | brk (label : Option String)
  | cont (label : Option String)
  | ret (value : Option Expr)
  /-- the bound was reached -/
  | unfinished

namespace Completion

/-- Go on behind a statement that completed normally. -/
def next (c : Completion) (rest : Run Evaluation Completion) : Run Evaluation Completion :=
  match c with
  | .normal => rest
  | c => pure c

/-- A `break` with one of the labels ends at the labeled statement. -/
def absorb (labels : List String) : Completion → Completion
  | .brk (some label) => if labels.contains label then .normal else .brk (some label)
  | c => c

/-- Whether a loop with the labels goes on after its body completed. -/
def continues (labels : List String) : Completion → Bool
  | .normal | .cont none => true
  | .cont (some label) => labels.contains label
  | _ => false

/-- How a loop completes that does not go on after its body. -/
def outOfLoop : Completion → Completion
  | .brk none => .normal
  | c => c

end Completion

/-- A loop with its test in front. -/
def whileLoop (labels : List String) (test : Run Evaluation Bool)
    (body : Run Evaluation Completion) (update : Run Evaluation Unit) :
    Nat → Run Evaluation Completion
  | 0 => pure .unfinished
  | n + 1 => do
    if ← test then
      let c ← body
      if c.continues labels then
        update
        whileLoop labels test body update n
      else pure c.outOfLoop
    else pure .normal

/-- A loop with its test behind. -/
def doWhileLoop (labels : List String) (body : Run Evaluation Completion)
    (test : Run Evaluation Bool) : Nat → Run Evaluation Completion
  | 0 => pure .unfinished
  | n + 1 => do
    let c ← body
    if c.continues labels then
      if ← test then doWhileLoop labels body test n
      else pure .normal
    else pure c.outOfLoop

/-- Evaluate an expression, if there is one, for its effect. -/
def Expr.runEffect : Option Expr → Run Evaluation Unit
  | none => pure ()
  | some e => perform [.effect e]

/-- A test that is missing is passed. -/
def Expr.runTest : Option Expr → Run Evaluation Bool
  | none => pure true
  | some e => ask (.test e)

/-- The expression that a `for` loop starts with. -/
def ForInit.expr? : ForInit → Option Expr
  | .expr e => some e
  | _ => Option.none

mutual

/-- Run a statement that has the labels right before it. The statements outside of the structured
ones have no meaning here. -/
def Stmt.run (bound : Nat) : Stmt → List String → Run Evaluation Completion
  | .empty, _ => pure .normal
  | .exprStmt e, _ => do
    perform [.effect e]
    pure .normal
  | .block body, _ => Stmt.runList bound body
  | .ifStmt test cons alt, _ => do
    if ← ask (.test test) then cons.run bound []
    else Stmt.runOpt bound alt
  | .whileStmt test body, labels =>
    whileLoop labels (ask (.test test)) (body.run bound []) (pure ()) bound
  | .doWhileStmt body test, labels =>
    doWhileLoop labels (body.run bound []) (ask (.test test)) bound
  | .forStmt init test update body, labels => do
    Expr.runEffect init.expr?
    whileLoop labels (Expr.runTest test) (body.run bound []) (Expr.runEffect update) bound
  | .labeled label body, labels => do
    pure ((← body.run bound (labels ++ [label])).absorb [label])
  | .breakStmt label _, _ => pure (.brk label)
  | .continueStmt label _, _ => pure (.cont label)
  | .returnStmt arg, _ => pure (.ret arg)
  | _, _ => pure .unfinished

def Stmt.runList (bound : Nat) : List Stmt → Run Evaluation Completion
  | [] => pure .normal
  | s :: rest => do (← s.run bound []).next (Stmt.runList bound rest)

def Stmt.runOpt (bound : Nat) : Option Stmt → Run Evaluation Completion
  | none => pure .normal
  | some s => s.run bound []

end

/-- What jumps can address at a place. -/
structure JumpScope where
  /-- the labels of the statements around -/
  labels : List String
  /-- the labels of the loops around -/
  loops : List String
  inLoop : Bool

namespace JumpScope

/-- The place of a whole body. -/
def outermost : JumpScope := ⟨[], [], false⟩

/-- Inside of a loop with the labels. -/
def looping (scope : JumpScope) (labels : List String) : JumpScope :=
  { scope with loops := labels ++ scope.loops, inLoop := true }

/-- Inside of a labeled statement. -/
def labeling (scope : JumpScope) (label : String) : JumpScope :=
  { scope with labels := label :: scope.labels }

end JumpScope

/-- Labels of letters and digits. -/
def isPlainLabel (label : String) : Bool := label.toList.all Char.isAlphanum

mutual

/-- A structured statement, with the labels right before it, in which every jump has a target and
nested labels differ; labels are of letters and digits. -/
def Stmt.Legal (scope : JumpScope) : Stmt → List String → Prop
  | .empty, _ | .exprStmt _, _ | .returnStmt _, _ => True
  | .block body, _ => Stmt.LegalList scope body
  | .ifStmt _ cons alt, _ => cons.Legal scope [] ∧ Stmt.LegalOpt scope alt
  | .whileStmt _ body, labels | .doWhileStmt body _, labels => body.Legal (scope.looping labels) []
  | .forStmt .none _ _ body, labels | .forStmt (.expr _) _ _ body, labels =>
    body.Legal (scope.looping labels) []
  | .labeled label body, labels =>
    label ∉ scope.labels ∧ isPlainLabel label = true ∧
      body.Legal (scope.labeling label) (labels ++ [label])
  | .breakStmt none _, _ | .continueStmt none _, _ => scope.inLoop = true
  | .breakStmt (some label) _, _ => label ∈ scope.labels
  | .continueStmt (some label) _, _ => label ∈ scope.loops
  | _, _ => False

def Stmt.LegalList (scope : JumpScope) : List Stmt → Prop
  | [] => True
  | s :: rest => s.Legal scope [] ∧ Stmt.LegalList scope rest

def Stmt.LegalOpt (scope : JumpScope) : Option Stmt → Prop
  | none => True
  | some s => s.Legal scope []

end

end EcmaLua
