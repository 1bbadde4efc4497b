import EcmaLua.Diagnostic.Finding
import EcmaLua.Surface.Basic
import EcmaLua.Text.Surrogate

/-!
# From surface syntax to programs

Every script has a program: what is outside the subset becomes an `Unsupported` node at the
nearest expression or statement around it. Of such a node only the parts that come before the
cause are looked at; the parts are looked at in the order that fixes the order of findings, in
which a key comes before its object, the arguments before their function, and a `catch` clause
before its `try` block.
-/

namespace EcmaLua

/-- The literal of a string's code points. -/
def Literal.ofPoints (points : Surface.Points) : Literal :=
  let joined := Text.joinSurrogates points
  if joined.all Text.isScalar then .string (String.ofList (joined.map Char.ofNat))
  else .bytes (joined.flatMap Text.encodePoint)

namespace Surface

/-- A computation that collects findings. -/
abbrev Collect := StateM (List Finding)

/-- A computation that can also stop at a construct outside the subset. -/
abbrev Attempt := ExceptT Unsupported Collect

def note (finding : Finding) : Collect Unit := modify (· ++ [finding])

/-- The result, or the construct at which the attempt stopped. -/
def Attempt.orElse {α : Type} (otherwise : Unsupported → α) (attempt : Attempt α) : Collect α := do
  match ← attempt.run with
  | .ok a => pure a
  | .error node => pure (otherwise node)

/-- Whether a call of this function runs its argument as code. -/
def isEval : EcmaLua.Expr → Bool
  | .ident name => name == "eval"
  | _ => false

def AssignOp.toCore? : AssignOp → Option (Option BinaryOp)
  | .plain => some none
  | .compound op => some (some op)
  | .logical => none

variable (numbering : Numbering)

/-- The node of an expression outside the subset. -/
def foreignNode (kind : String) (category : Category) (extent : Extent) : Unsupported :=
  ⟨kind, category, numbering.span extent⟩

def foreignExpr (kind : String) (extent : Extent) : EcmaLua.Expr :=
  .unsupported (foreignNode numbering kind .expression extent)

/-- The name that a pattern binds. -/
def Pattern.toCore : Pattern → Attempt String
  | .ident name => pure name
  | .other kind extent => throw (foreignNode numbering kind.text .pattern extent)

def Pattern.toCoreList : List Pattern → Attempt (List String)
  | [] => pure []
  | p :: rest => do
    let name ← p.toCore numbering
    pure (name :: (← Pattern.toCoreList rest))

def Pattern.toCoreOpt : Option Pattern → Attempt (Option String)
  | none => pure none
  | some p => do pure (some (← p.toCore numbering))

/-- An update of an expression that is a place. -/
def updateCore (op : UpdateOp) (leading : Bool) (arg : EcmaLua.Expr) (extent : Extent) :
    EcmaLua.Expr :=
  if arg.isTarget then .update op leading arg
  else foreignExpr numbering "UpdateExpression" extent

def binaryCore (op : BinOp) (left right : EcmaLua.Expr) (extent : Extent) : EcmaLua.Expr :=
  match op with
  | .plain op => .binary op left right
  | .logical op => .logical op left right
  | .nullish => foreignExpr numbering "NullishCoalescing" extent

/-- An assignment; its value is looked at when the operator and the target are in the subset. -/
def assignCore (op : AssignOp) (target value : Collect EcmaLua.Expr) (extent : Extent) :
    Collect EcmaLua.Expr :=
  match op.toCore? with
  | none => pure (foreignExpr numbering "LogicalAssignment" extent)
  | some op => do
    let place ← target
    if place.isTarget then pure (.assign op place (← value))
    else pure (foreignExpr numbering "AssignmentExpression" extent)

/-- An assignment to what is no place. -/
def assignForeignCore (op : AssignOp) (target : ForeignTarget) (extent : Extent) : EcmaLua.Expr :=
  match op.toCore? with
  | none => foreignExpr numbering "LogicalAssignment" extent
  | some _ =>
    match target with
    | .expr inner => foreignExpr numbering "AssignmentExpression" inner
    | .pattern kind inner => .unsupported (foreignNode numbering kind.text .pattern inner)

/-- A call; one of `eval` is noted. -/
def callCore (callee : Collect EcmaLua.Expr) (args : List EcmaLua.Expr) (extent : Extent) :
    Collect EcmaLua.Expr := do
  let f ← callee
  if isEval f then note (.directEval (numbering.span extent))
  pure (.call f args)

/-- A function expression. -/
def functionCore (f : Attempt EcmaLua.Func) : Collect EcmaLua.Expr :=
  Attempt.orElse .unsupported do pure (.func (← f))

/-- A property of an object literal with the given key. -/
def Key.property (value : EcmaLua.Expr) : PropName ⊕ EcmaLua.Expr → Property
  | .inl name => .named name value
  | .inr key => .computed key value

/-- A key that is a string; one without a text is computed. -/
def stringKey (points : Points) : PropName ⊕ EcmaLua.Expr :=
  match Literal.ofPoints points with
  | .string s => .inl (.string s)
  | l => .inr (.lit l)

mutual

def Expr.toCore : Expr → Collect EcmaLua.Expr
  | .this => pure .this
  | .ident name => pure (.ident name)
  | .null => pure (.lit .null)
  | .bool b => pure (.lit (.bool b))
  | .number x => pure (.lit (.number x))
  | .string points => pure (.lit (.ofPoints points))
  | .regex pattern flags => pure (.lit (.regex pattern flags))
  | .paren e => e.toCore
  | .array elements extent =>
    Attempt.orElse .unsupported do pure (.array (← Arg.toCoreElements extent elements))
  | .object members =>
    Attempt.orElse .unsupported do pure (.object (← Member.toCore members))
  | .func name f => functionCore (f.toCore name)
  | .unary op arg => do pure (.unary op (← arg.toCore))
  | .update op leading arg extent => do
    pure (updateCore numbering op leading (← arg.toCore) extent)
  | .binary op left right extent => do
    let l ← left.toCore
    let r ← right.toCore
    pure (binaryCore numbering op l r extent)
  | .assign op target value extent => assignCore numbering op target.toCore value.toCore extent
  | .assignForeign op target extent => pure (assignForeignCore numbering op target extent)
  | .cond test cons alt => do
    let t ← test.toCore
    let c ← cons.toCore
    pure (.cond t c (← alt.toCore))
  | .member object name => do pure (.member (← object.toCore) name)
  | .index object key => do
    let k ← key.toCore
    pure (.index (← object.toCore) k)
  | .call callee args extent =>
    Attempt.orElse .unsupported do
      let values ← Arg.toCore args
      callCore numbering callee.toCore values extent
  | .new callee args =>
    Attempt.orElse .unsupported do
      let values ← Arg.toCore args
      pure (.new (← callee.toCore) values)
  | .seq items => do pure (.seq (← Expr.toCoreList items))
  | .foreign kind extent => pure (foreignExpr numbering kind.text extent)

def Expr.toCoreList : List Expr → Collect (List EcmaLua.Expr)
  | [] => pure []
  | e :: rest => do
    let value ← e.toCore
    pure (value :: (← Expr.toCoreList rest))

def Expr.toCoreOpt : Option Expr → Collect (Option EcmaLua.Expr)
  | none => pure none
  | some e => do pure (some (← e.toCore))

/-- The elements of an array; a spread element puts the whole array outside the subset. -/
def Arg.toCoreElements (extent : Extent) : List (Option Arg) → Attempt (List (Option EcmaLua.Expr))
  | [] => pure []
  | none :: rest => do pure (none :: (← Arg.toCoreElements extent rest))
  | some ⟨none, e⟩ :: rest => do
    let value ← e.toCore
    pure (some value :: (← Arg.toCoreElements extent rest))
  | some ⟨some _, _⟩ :: _ =>
    throw (foreignNode numbering "SpreadElement" .expression extent)

/-- The arguments of a call; a spread argument puts the whole call outside the subset. -/
def Arg.toCore : List Arg → Attempt (List EcmaLua.Expr)
  | [] => pure []
  | ⟨none, e⟩ :: rest => do
    let value ← e.toCore
    pure (value :: (← Arg.toCore rest))
  | ⟨some dots, _⟩ :: _ => throw (foreignNode numbering "SpreadElement" .expression dots)

def Key.toCore : Key → Collect (PropName ⊕ EcmaLua.Expr)
  | .ident name => pure (.inl (.ident name))
  | .string points => pure (stringKey points)
  | .number x => pure (.inl (.number x))
  | .bigint n => pure (.inl (.string (toString n)))
  | .computed e => do pure (.inr (← e.toCore))

/-- The members of an object literal; a spread member puts the whole literal outside the
subset. -/
def Member.toCore : List Member → Attempt (List Property)
  | [] => pure []
  | .shorthand name :: rest => do
    pure (.named (.ident name) (.ident name) :: (← Member.toCore rest))
  | .keyValue key value :: rest => do
    let k ← key.toCore
    let v ← value.toCore
    pure (Key.property v k :: (← Member.toCore rest))
  | .method key f :: rest => do
    let k ← key.toCore
    let v ← functionCore (f.toCore none)
    pure (Key.property v k :: (← Member.toCore rest))
  | .getter key extent :: rest => do
    let k ← key.toCore
    let v := .unsupported (foreignNode numbering "GetterProperty" .property extent)
    pure (Key.property v k :: (← Member.toCore rest))
  | .setter key extent :: rest => do
    let k ← key.toCore
    let v := .unsupported (foreignNode numbering "SetterProperty" .property extent)
    pure (Key.property v k :: (← Member.toCore rest))
  | .assigned name extent :: rest => do
    let v := .unsupported (foreignNode numbering "AssignmentPattern" .pattern extent)
    pure (.named (.ident name) v :: (← Member.toCore rest))
  | .spread dots _ :: _ => throw (foreignNode numbering "SpreadElement" .property dots)

/-- A function of the plain kind whose parameters are names. -/
def Func.toCore (name : Option String) : Func → Attempt EcmaLua.Func
  | ⟨params, body, isGenerator, isAsync, extent⟩ =>
    if isGenerator then throw (foreignNode numbering "GeneratorFunction" .expression extent)
    else if isAsync then throw (foreignNode numbering "AsyncFunction" .expression extent)
    else do
      let names ← Pattern.toCoreList numbering params
      pure ⟨name, names, ← Stmt.toCoreList body⟩

def Declarator.toCore : List Declarator → Attempt (List EcmaLua.Declarator)
  | [] => pure []
  | ⟨pattern, init⟩ :: rest => do
    let name ← pattern.toCore numbering
    let value ← Expr.toCoreOpt init
    pure (⟨name, value⟩ :: (← Declarator.toCore rest))

def ForInit.toCore : ForInit → Collect EcmaLua.ForInit
  | .none => pure .none
  | .vars kind decls =>
    Attempt.orElse (fun node => .expr (.unsupported node))
      (do pure (.vars kind (← Declarator.toCore decls)))
  | .expr e => do pure (.expr (← e.toCore))

/-- The head of a `for`-`in` loop with the given extent; a declaration counts with its first
name only. -/
def ForInHead.toCore (extent : Extent) : ForInHead → Attempt EcmaLua.ForInHead
  | .var kind (some pattern) => do pure (.var kind (← pattern.toCore numbering))
  | .var _ none => throw (foreignNode numbering "ForInStatement" .statement extent)
  | .target e => do pure (.target (← e.toCore))
  | .pattern kind inner => throw (foreignNode numbering kind.text .pattern inner)
  | .usingDecl inner =>
    throw (foreignNode numbering ForeignStmt.usingDecl.text .statement inner)

def Catch.toCore : Option Catch → Attempt (List CatchClause)
  | none => pure []
  | some ⟨param, body⟩ => do
    let name ← Pattern.toCoreOpt numbering param
    pure [⟨name, ← Stmt.toCoreList body⟩]

def Case.toCore : List Case → Collect (List SwitchCase)
  | [] => pure []
  | ⟨test, body⟩ :: rest => do
    let t ← Expr.toCoreOpt test
    let code ← Stmt.toCoreList body
    pure (⟨t, code⟩ :: (← Case.toCore rest))

def Stmt.toCore : Stmt → Collect EcmaLua.Stmt
  | .empty => pure .empty
  | .exprStmt e => do pure (.exprStmt (← e.toCore))
  | .block body => do pure (.block (← Stmt.toCoreList body))
  | .varStmt kind decls =>
    Attempt.orElse .unsupported do pure (.varStmt kind (← Declarator.toCore decls))
  | .funcStmt name f =>
    Attempt.orElse .unsupported do pure (.funcStmt (← f.toCore (some name)))
  | .returnStmt arg => do pure (.returnStmt (← Expr.toCoreOpt arg))
  | .throwStmt arg => do pure (.throwStmt (← arg.toCore))
  | .breakStmt label extent => pure (.breakStmt label (numbering.span extent))
  | .continueStmt label extent => pure (.continueStmt label (numbering.span extent))
  | .ifStmt test cons alt => do
    let t ← test.toCore
    let c ← cons.toCore
    pure (.ifStmt t c (← Stmt.toCoreOpt alt))
  | .whileStmt test body => do
    let t ← test.toCore
    pure (.whileStmt t (← body.toCore))
  | .doWhileStmt body test => do
    let b ← body.toCore
    pure (.doWhileStmt b (← test.toCore))
  | .forStmt init test update body => do
    let i ← init.toCore
    let t ← Expr.toCoreOpt test
    let u ← Expr.toCoreOpt update
    pure (.forStmt i t u (← body.toCore))
  | .forInStmt head object body extent =>
    Attempt.orElse .unsupported do
      let h ← head.toCore extent
      let o ← object.toCore
      pure (.forInStmt h o (← body.toCore))
  | .switchStmt discriminant cases => do
    let d ← discriminant.toCore
    pure (.switchStmt d (← Case.toCore cases))
  | .tryStmt block handler finalizer extent =>
    Attempt.orElse .unsupported do
      let handlers ← Catch.toCore handler
      let b ← Stmt.toCoreList block
      pure (.tryStmt b handlers (← Stmt.toCoreBlock finalizer) (numbering.span extent))
  | .withStmt object body extent => do
    let o ← object.toCore
    pure (.withStmt o (← body.toCore) (numbering.span extent))
  | .labeled label body => do pure (.labeled label (← body.toCore))
  | .foreign kind extent => pure (.unsupported (foreignNode numbering kind.text .statement extent))

def Stmt.toCoreList : List Stmt → Collect (List EcmaLua.Stmt)
  | [] => pure []
  | s :: rest => do
    let code ← s.toCore
    pure (code :: (← Stmt.toCoreList rest))

def Stmt.toCoreOpt : Option Stmt → Collect (Option EcmaLua.Stmt)
  | none => pure none
  | some s => do pure (some (← s.toCore))

def Stmt.toCoreBlock : Option (List Stmt) → Collect (Option (List EcmaLua.Stmt))
  | none => pure none
  | some body => do pure (some (← Stmt.toCoreList body))

end

/-- The program of a script, and what is to be reported about it. -/
def Script.toProgram (script : Script) : Program × List Finding :=
  let (body, findings) := (Stmt.toCoreList numbering script.body).run []
  (⟨body⟩, findings)

end Surface

end EcmaLua
