import EcmaLua.Emission.Construct

/-!
# Code of a program

The walk over expressions and statements: before the parts that follow, and left before right.
-/

namespace EcmaLua

open Emission

/-- Where a statement stands: in a list, with the labels right before it, or as the body of a
construct that has a block already. -/
inductive Emission.Place where
  | statement (labels : List String)
  | body

/-- The labels right before the place. -/
def Emission.Place.labels : Emission.Place → List String
  | .statement labels => labels
  | .body => []

/-- Whether nothing that follows in the block can be reached in Lua's grammar. -/
def Stmt.endsBlock : Stmt → Bool
  | .returnStmt _ => true
  | .breakStmt none _ => true
  | _ => false

mutual

/-- The Lua code of an expression for each of its uses. -/
def Expr.emit : Expr → Rendition
  | .ident name => .ident name
  | .this => .this
  | .lit value => .literal value
  | .array items => .array items.length (Expr.emitItems 0 items)
  | .object props => .object (Property.emit props)
  | .func f => .function (functionValue f.name f.references f.emit)
  | .unary op arg => .unary op arg.emit
  | .update op leading arg => .update op leading arg.emit
  | .binary op left right => .binary op left.emit right.emit
  | .logical op left right => .logical op left.emit right.emit
  | .assign op target value => .assign op target.emit value.emit
  | .cond test cons alt => .conditional test.emit cons.emit alt.emit
  | .call callee args => .call callee.emit (Expr.emitValues args)
  | .new callee args => .new callee.emit (Expr.emitValues args)
  | .member object name => .member object.emit name
  | .index object key => .index object.emit key.emit
  | .seq items => .sequence (Expr.emitValues items) (Expr.emitEffects items)
  | .unsupported node => .unsupported node

def Expr.emitValues : List Expr → Emit (List Lua.Expr)
  | [] => pure []
  | e :: rest => do
    let value ← e.emit.value
    pure (value :: (← Expr.emitValues rest))

def Expr.emitEffects : List Expr → Emit (List Lua.Stat)
  | [] => pure []
  | e :: rest => do
    let code ← e.emit.effect
    pure (code ++ (← Expr.emitEffects rest))

def Expr.emitOpt : Option Expr → Option Rendition
  | none => none
  | some e => some e.emit

/-- The fields of an array from an index on; a hole is nil. -/
def Expr.emitItems (index : Nat) : List (Option Expr) → Emit (List Lua.Field)
  | [] => pure []
  | item :: rest => do
    let value ←
      match Expr.emitOpt item with
      | none => pure .nil
      | some e => e.value
    pure (.keyed (.int index) value :: (← Expr.emitItems (index + 1) rest))

def Property.emit : List Property → Emit (List Lua.Field)
  | [] => pure []
  | .named key value :: rest => do
    let v ← value.emit.value
    pure (.keyed (Rendition.propName key) v :: (← Property.emit rest))
  | .computed key value :: rest => do
    let k ← key.emit.value
    let v ← value.emit.value
    pure (.keyed k v :: (← Property.emit rest))

/-- The function itself, without a binding for its name. -/
def Func.emit : Func → Emit Lua.Expr
  | ⟨_, params, body⟩ => functionCode params (.ofBody body) (Stmt.emitList body)

/-- The assignments of the variables that have a first value. -/
def Declarator.emit : List Declarator → Emit (List Lua.Stat)
  | [] => pure []
  | ⟨name, init⟩ :: rest => do
    let code ←
      match Expr.emitOpt init with
      | none => pure []
      | some e => initialized name e.value
    pure (code ++ (← Declarator.emit rest))

def ForInit.emit : ForInit → Emit (List Lua.Stat)
  | .none => pure []
  | .vars _ decls => do
    let locals ← declareLocals (Declarator.names decls)
    pure (locals ++ (← Declarator.emit decls))
  | .expr e => e.emit.effect

/-- The name of the key, and the code that stores it where the loop wants it. -/
def ForInHead.emit : ForInHead → Emit (String × List Lua.Stat)
  | .var _ name => pure (Lua.spell name, [])
  | .target (.ident name) => pure (Lua.spell name, [])
  | .target e => do
    let key ← fresh "__tmp"
    let target ← e.emit.target
    pure (key, [.store target key])

/-- The Lua code of a statement. -/
def Stmt.emit (place : Place) : Stmt → Emit (List Lua.Stat)
  | .empty => labeledCode place.labels (pure [])
  | .exprStmt e => labeledCode place.labels e.emit.effect
  | .varStmt _ decls => labeledCode place.labels do
    let locals ← declareLocals (Declarator.names decls)
    pure (locals ++ (← Declarator.emit decls))
  | .funcStmt f => labeledCode place.labels (functionDeclaration f.name f.emit)
  | .returnStmt arg =>
    labeledReturn place.labels (returned ((Expr.emitOpt arg).map Rendition.value))
  | .throwStmt arg => labeledCode place.labels (thrown arg.emit.value)
  | .breakStmt label span => labeledCode place.labels (breakCode label span)
  | .continueStmt label span => labeledCode place.labels (continueCode label span)
  | .ifStmt test cons alt => labeledCode place.labels do
    let c ← condition test.emit
    let body ← cons.emit .body
    pure [.ifThen c body (← Stmt.emitElse alt)]
  | .whileStmt test body => do
    pure (nested place.labels (← whileCode place.labels test.emit (body.emit .body)))
  | .doWhileStmt body test => do
    pure (nested place.labels (← doWhileCode place.labels (body.emit .body) test.emit))
  | .forStmt init test update body => do
    pure (nested place.labels (← forCode place.labels init.emit (Expr.emitOpt test)
      (((Expr.emitOpt update).map Rendition.effect).getD (pure [])) (body.emit .body)))
  | .forInStmt head object body => do
    pure (nested place.labels (← forInCode place.labels object.emit head.emit (body.emit .body)))
  | .switchStmt discriminant cases =>
    labeledCode place.labels
      (switchCode discriminant.emit (SwitchCase.emitArms 1 cases)
        ((cases.findIdx? fun c => c.test.isNone).map (· + 1)) (SwitchCase.emitBodies 1 cases))
  | .tryStmt block handlers finalizer span =>
    labeledCode place.labels
      (tryCode span (Stmt.emitList block) handlers.length (CatchClause.emitFirst handlers)
        (Stmt.emitBlock finalizer))
  | .withStmt object body span =>
    labeledCode place.labels (withCode span object.emit (body.emit .body))
  | .labeled label body => body.emit (.statement (place.labels ++ [label]))
  | .block body =>
    match place with
    | .body => Stmt.emitList body
    | .statement labels => labeledCode labels do pure [.doBlock (← Stmt.emitList body)]
  | .unsupported node => labeledCode place.labels (unsupportedCode node)

/-- Statements in order, up to one that has to be the last of its block. -/
def Stmt.emitList : List Stmt → Emit (List Lua.Stat)
  | [] => pure []
  | s :: rest => do
    let code ← s.emit (.statement [])
    if s.endsBlock then pure code
    else pure (code ++ (← Stmt.emitList rest))

def Stmt.emitBlock : Option (List Stmt) → Option (Emit (List Lua.Stat))
  | none => none
  | some body => some (Stmt.emitList body)

/-- The alternative of a conditional; a further conditional continues it. -/
def Stmt.emitElse : Option Stmt → Emit Lua.Tail
  | none => pure .none
  | some (.ifStmt test cons alt) => do
    let c ← condition test.emit
    let body ← cons.emit .body
    pure (.elseif c body (← Stmt.emitElse alt))
  | some s => do pure (.otherwise (← s.emit .body))

/-- The arms that select the cases from the number `n` on. -/
def SwitchCase.emitArms (n : Nat) (cases : List SwitchCase) (value selected : String) :
    Emit (List Lua.Arm) :=
  match cases with
  | [] => pure []
  | ⟨test, _⟩ :: rest => do
    let arm ←
      match Expr.emitOpt test with
      | none => pure []
      | some e => do pure [caseArm value selected n (← e.value)]
    pure (arm ++ (← SwitchCase.emitArms (n + 1) rest value selected))

/-- The bodies of the cases from the number `n` on. -/
def SwitchCase.emitBodies (n : Nat) (cases : List SwitchCase) (selected : String) :
    Emit (List Lua.Stat) :=
  match cases with
  | [] => pure []
  | ⟨_, body⟩ :: rest => do
    let code ← Stmt.emitList body
    let here := if body.isEmpty then [] else [caseBody selected n code]
    pure (here ++ (← SwitchCase.emitBodies (n + 1) rest selected))

def CatchClause.emitFirst : List CatchClause → Option (Emit (List String × List Lua.Stat))
  | [] => none
  | ⟨param, body⟩ :: _ => some (handlerCode param (Stmt.emitList body))

end

namespace Emission

/-- The frame of the program root: its own names, the table behind the global scope, and
`eval` unless the program has a function of that name. -/
def rootFrame (names : Declarations) : Frame :=
  let frame :=
    (Frame.lexical "builtins-and-toplevels" (Lua.globalObjects :: names.vars)
      ("eval" :: names.funcs) []).define Lua.globalObjects .builtin
  if names.funcs.contains "eval" then frame else frame.define "eval" .builtin

/-- The result of emission. -/
structure Result where
  chunk : Lua.Chunk
  findings : List Finding

end Emission

/-- The action that makes the Lua code of a program in hoisted shape. -/
def Program.emission (p : Program) : Emit (List Lua.Stat) :=
  let names := Declarations.ofBody p.body
  inFrame (.object "program" Lua.globalObjects) (inFrame (rootFrame names) do
    let locals ← declareLocals names.funcs
    pure ([.marker "BEGIN"] ++ locals ++ (← Stmt.emitList p.body) ++ [.marker "END"]))

/-- The Lua code of a program in hoisted shape. -/
def Program.emit (p : Program) : Emission.Result :=
  let (code, state) := p.emission.run {}
  ⟨⟨code⟩, state.findings⟩

end EcmaLua
