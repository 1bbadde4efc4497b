import EcmaLua.Proofs.Meaning.Host
import EcmaLua.Proofs.Program.Declared

/-!
# What programs do

Expressions denote values and places, statements exit in one of several ways. On entry to a body
its parameters are bound, then the functions that it declares, in source order, and then the
variables that have no value yet; a declaration of variables is no more than the assignments of its
initializers, and a declaration of a function is nothing. A loop goes round, and calls are nested,
at most as often as the bound says.
-/

namespace EcmaLua

open Meaning

namespace Meaning

/-- How a statement exits. -/
inductive Exit (D : Type) where
  | normal
  | broke (label : Option String)
  | continued (label : Option String)
  | returned (value : Value D)

namespace Exit

variable {D : Type}

/-- A `break` with the label ends at the labeled statement. -/
def atLabel (label : String) : Exit D → Exit D
  | .broke (some other) => if other = label then .normal else .broke (some other)
  | exit => exit

/-- Whether a loop with the labels goes on after its body. -/
def goesOn (labels : List String) : Exit D → Bool
  | .normal | .continued none => true
  | .continued (some label) => labels.contains label
  | _ => false

/-- The exit of a loop or a `switch` that is left. -/
def fromInside : Exit D → Exit D
  | .broke none => .normal
  | exit => exit

end Exit

variable {H : Host}

/-- Go on behind a statement that exited normally. -/
def Exit.next (exit : Exit H.Datum) (rest : Eval H (Exit H.Datum)) : Eval H (Exit H.Datum) :=
  match exit with
  | .normal => rest
  | exit => pure exit

/-- Rounds of a loop with its test in front. -/
def whileRounds (labels : List String) (test : Eval H Bool) (body : Eval H (Exit H.Datum))
    (update : Eval H Unit) : Nat → Eval H (Exit H.Datum)
  | 0 => throw .unfinished
  | n + 1 => do
    if ← test then
      let exit ← body
      if exit.goesOn labels then
        update
        whileRounds labels test body update n
      else pure exit.fromInside
    else pure .normal

/-- Rounds of a loop with its test behind. -/
def doWhileRounds (labels : List String) (body : Eval H (Exit H.Datum)) (test : Eval H Bool) :
    Nat → Eval H (Exit H.Datum)
  | 0 => throw .unfinished
  | n + 1 => do
    let exit ← body
    if exit.goesOn labels then
      if ← test then doWhileRounds labels body test n
      else pure .normal
    else pure exit.fromInside

/-- Parameters with their arguments; missing arguments are undefined, and of parameters with one
name the last counts. -/
def bindParams : List String → List (Value H.Datum) → Record H.Datum → Record H.Datum
  | [], _, r => r
  | name :: rest, args, r => bindParams rest args.tail (bindName name (args.headD void) r)

/-- Functions with the numbers from `n` on, where they have names. -/
def bindFuncs : List Func → Nat → Record H.Datum → Record H.Datum
  | [], _, r => r
  | f :: rest, n, r =>
    bindFuncs rest (n + 1) (match f.name with
      | none => r
      | some name => bindName name (.function n) r)

/-- Variables that have no value yet are undefined. -/
def bindVars (names : List String) (r : Record H.Datum) : Record H.Datum := fun name =>
  match r name with
  | some v => some v
  | none => if name ∈ names then some void else none

/-- Enter a body: its names get a record, and its functions are made. -/
def enter (start : Record H.Datum) (params : List String) (args : List (Value H.Datum))
    (body : List Stmt) (chain : List (Layer H.Datum)) : Eval H (List (Layer H.Datum)) := do
  let s ← get
  let inner := Layer.record s.records.length :: chain
  let funcs := Stmt.funcsList body
  let record := bindVars (Stmt.varsList body)
    (bindFuncs funcs s.closures.length (bindParams params args start))
  set { s with
    records := s.records ++ [record]
    closures := s.closures ++ funcs.map (Closure.mk · inner) }
  pure inner

/-- An exception of the block goes to the handler, if there is one. -/
def handle (handler : Option (Value H.Datum → Eval H (Exit H.Datum)))
    (tried : Except (Value H.Datum) (Exit H.Datum)) :
    Eval H (Except (Value H.Datum) (Exit H.Datum)) :=
  match tried, handler with
  | .error v, some act => attempt (act v)
  | tried, _ => pure tried

/-- The finalizer comes last, and its exit counts unless it is normal. -/
def conclude (finalizer : Option (Eval H (Exit H.Datum)))
    (result : Except (Value H.Datum) (Exit H.Datum)) : Eval H (Exit H.Datum) :=
  match finalizer with
  | none => settle result
  | some act => do
    let exit ← act
    exit.next (settle result)

def tryParts (block : Eval H (Exit H.Datum))
    (handler : Option (Value H.Datum → Eval H (Exit H.Datum)))
    (finalizer : Option (Eval H (Exit H.Datum))) : Eval H (Exit H.Datum) := do
  let tried ← attempt block
  let result ← handle handler tried
  conclude finalizer result

end Meaning

variable {H : Host} (calls : Calls H) (bound : Nat)

mutual

/-- What an expression denotes. -/
def Expr.denote (ctx : Context H.Datum) : Expr → Eval H (Ref H.Datum)
  | .ident name => resolve calls name ctx.chain
  | .this => pure (.value ctx.receiver)
  | .lit value => .value <$> ask calls (.literal value)
  | .array items => do
    let array ← ask calls .newArray
    Expr.fill ctx array 0 items
    pure (.value array)
  | .object props => do
    let object ← ask calls .newObject
    Property.fill ctx object props
    pure (.value object)
  | .func f => .value <$> makeFunction f ctx.chain
  | .unary op arg => do
    let place ← arg.denote ctx
    .value <$> applyUnary calls op place
  | .update op leading arg => do
    let place ← arg.denote ctx
    .value <$> applyUpdate calls op leading place
  | .binary op left right => do
    let l ← left.denote ctx >>= load calls
    let r ← right.denote ctx >>= load calls
    .value <$> ask calls (.binary op l r)
  | .logical op left right => do
    let l ← left.denote ctx >>= load calls
    if H.truth l == (op == .and) then .value <$> (right.denote ctx >>= load calls)
    else pure (.value l)
  | .assign none target value => do
    let place ← target.denote ctx
    let v ← value.denote ctx >>= load calls
    save calls v place
    pure (.value v)
  | .assign (some op) target value => do
    let place ← target.denote ctx
    let old ← load calls place
    let operand ← value.denote ctx >>= load calls
    let v ← ask calls (.binary op old operand)
    save calls v place
    pure (.value v)
  | .cond test cons alt => do
    let t ← test.denote ctx >>= load calls
    if H.truth t then .value <$> (cons.denote ctx >>= load calls)
    else .value <$> (alt.denote ctx >>= load calls)
  | .call callee args => do
    let place ← callee.denote ctx
    let f ← load calls place
    let vs ← Expr.values ctx args
    .value <$> callValue calls f place.receiver vs
  | .new callee args => do
    let f ← callee.denote ctx >>= load calls
    let vs ← Expr.values ctx args
    .value <$> ask calls (.construct f vs)
  | .member object name => do
    let o ← object.denote ctx >>= load calls
    pure (.property o (.fixed (.ident name)))
  | .index object key => do
    let o ← object.denote ctx >>= load calls
    let k ← key.denote ctx >>= load calls
    pure (.property o (.computed k))
  | .seq items => do
    let vs ← Expr.values ctx items
    pure (.value (vs.getLastD void))
  | .unsupported node => .value <$> ask calls (.unsupported node)

/-- The values of expressions, from left to right. -/
def Expr.values (ctx : Context H.Datum) : List Expr → Eval H (List (Value H.Datum))
  | [] => pure []
  | e :: rest => do
    let v ← e.denote ctx >>= load calls
    let vs ← Expr.values ctx rest
    pure (v :: vs)

/-- The items of an array from an index on; a hole is left out. -/
def Expr.fill (ctx : Context H.Datum) (array : Value H.Datum) (index : Nat) :
    List (Option Expr) → Eval H Unit
  | [] => do
    let _ ← ask calls (.arrayLength array index)
  | none :: rest => Expr.fill ctx array (index + 1) rest
  | some e :: rest => do
    let v ← e.denote ctx >>= load calls
    let _ ← ask calls (.element array index v)
    Expr.fill ctx array (index + 1) rest

/-- The properties of an object. -/
def Property.fill (ctx : Context H.Datum) (object : Value H.Datum) :
    List Property → Eval H Unit
  | [] => pure ()
  | .named key value :: rest => do
    let v ← value.denote ctx >>= load calls
    let _ ← ask calls (.define object (.fixed key) v)
    Property.fill ctx object rest
  | .computed key value :: rest => do
    let k ← key.denote ctx >>= load calls
    let v ← value.denote ctx >>= load calls
    let _ ← ask calls (.define object (.computed k) v)
    Property.fill ctx object rest

end

/-- The value of an expression. -/
def Expr.value (ctx : Context H.Datum) (e : Expr) : Eval H (Value H.Datum) :=
  e.denote calls ctx >>= load calls

/-- Evaluate an expression, if there is one, for its effects. -/
def Expr.effects (ctx : Context H.Datum) : Option Expr → Eval H Unit
  | none => pure ()
  | some e => do
    let _ ← e.value calls ctx

/-- A test; one that is missing is passed. -/
def Expr.passes (ctx : Context H.Datum) : Option Expr → Eval H Bool
  | none => pure true
  | some e => H.truth <$> e.value calls ctx

/-- The assignments of the variables that have initializers. -/
def Declarator.perform (ctx : Context H.Datum) : List Declarator → Eval H Unit
  | [] => pure ()
  | ⟨_, none⟩ :: rest => Declarator.perform ctx rest
  | ⟨name, some init⟩ :: rest => do
    let place ← resolve calls name ctx.chain
    let v ← init.value calls ctx
    save calls v place
    Declarator.perform ctx rest

def ForInit.start (ctx : Context H.Datum) : ForInit → Eval H Unit
  | .none => pure ()
  | .vars _ decls => Declarator.perform calls ctx decls
  | .expr e => Expr.effects calls ctx (some e)

/-- Where a loop over keys puts the key. -/
def ForInHead.place (ctx : Context H.Datum) : ForInHead → Eval H (Ref H.Datum)
  | .var _ name => resolve calls name ctx.chain
  | .target e => e.denote calls ctx

/-- The number of the first case from `n` on whose test is the value. -/
def SwitchCase.select (ctx : Context H.Datum) (v : Value H.Datum) (n : Nat) :
    List SwitchCase → Eval H (Option Nat)
  | [] => pure none
  | ⟨none, _⟩ :: rest => SwitchCase.select ctx v (n + 1) rest
  | ⟨some test, _⟩ :: rest => do
    let t ← test.value calls ctx
    let equal ← ask calls (.binary .strictEq v t)
    if H.truth equal then pure (some n) else SwitchCase.select ctx v (n + 1) rest

mutual

/-- Execute a statement that has the labels right before it. -/
def Stmt.execute (ctx : Context H.Datum) (labels : List String) :
    Stmt → Eval H (Exit H.Datum)
  | .empty => pure .normal
  | .exprStmt e => do
    Expr.effects calls ctx (some e)
    pure .normal
  | .varStmt _ decls => do
    Declarator.perform calls ctx decls
    pure .normal
  | .funcStmt _ => pure .normal
  | .returnStmt none => pure (.returned void)
  | .returnStmt (some e) => .returned <$> e.value calls ctx
  | .throwStmt e => do
    let v ← e.value calls ctx
    throw (.thrown v)
  | .breakStmt label _ => pure (.broke label)
  | .continueStmt label _ => pure (.continued label)
  | .ifStmt test cons alt => do
    if ← Expr.passes calls ctx (some test) then cons.execute ctx []
    else Stmt.executeOpt ctx alt
  | .whileStmt test body =>
    whileRounds labels (Expr.passes calls ctx (some test)) (body.execute ctx []) (pure ()) bound
  | .doWhileStmt body test =>
    doWhileRounds labels (body.execute ctx []) (Expr.passes calls ctx (some test)) bound
  | .forStmt init test update body => do
    init.start calls ctx
    whileRounds labels (Expr.passes calls ctx test) (body.execute ctx [])
      (Expr.effects calls ctx update) bound
  | .forInStmt head object body => do
    let o ← object.value calls ctx
    let keys ← ask calls (.keys o)
    whileRounds labels (H.truth <$> ask calls (.moreKeys keys))
      (do
        let key ← ask calls (.nextKey keys)
        let place ← head.place calls ctx
        save calls key place
        body.execute ctx []) (pure ()) bound
  | .switchStmt discriminant cases => do
    let v ← discriminant.value calls ctx
    let selected ← SwitchCase.select calls ctx v 0 cases
    match selected.or (cases.findIdx? fun c => c.test.isNone) with
    | none => pure .normal
    | some n => Exit.fromInside <$> SwitchCase.execute ctx n cases
  | .tryStmt block handlers finalizer _ =>
    tryParts (Stmt.executeList ctx block) (CatchClause.executeFirst ctx handlers)
      (Stmt.executeBlock ctx finalizer)
  | .withStmt object body _ => do
    let v ← object.value calls ctx
    let o ← ask calls (.toObject v)
    body.execute { ctx with chain := .object o :: ctx.chain } []
  | .labeled label body => Exit.atLabel label <$> body.execute ctx (labels ++ [label])
  | .block body => Stmt.executeList ctx body
  | .unsupported node => do
    let _ ← ask calls (.unsupported node)
    pure .normal

def Stmt.executeList (ctx : Context H.Datum) : List Stmt → Eval H (Exit H.Datum)
  | [] => pure .normal
  | s :: rest => do
    let exit ← s.execute ctx []
    exit.next (Stmt.executeList ctx rest)

def Stmt.executeOpt (ctx : Context H.Datum) : Option Stmt → Eval H (Exit H.Datum)
  | none => pure .normal
  | some s => s.execute ctx []

def Stmt.executeBlock (ctx : Context H.Datum) :
    Option (List Stmt) → Option (Eval H (Exit H.Datum))
  | none => none
  | some body => some (Stmt.executeList ctx body)

/-- The bodies of the cases from the number `n` on. -/
def SwitchCase.execute (ctx : Context H.Datum) (n : Nat) :
    List SwitchCase → Eval H (Exit H.Datum)
  | [] => pure .normal
  | ⟨_, body⟩ :: rest =>
    match n with
    | 0 => do
      let exit ← Stmt.executeList ctx body
      exit.next (SwitchCase.execute ctx 0 rest)
    | n + 1 => SwitchCase.execute ctx n rest

/-- The first of the `catch` clauses, with its parameter bound. -/
def CatchClause.executeFirst (ctx : Context H.Datum) :
    List CatchClause → Option (Value H.Datum → Eval H (Exit H.Datum))
  | [] => none
  | ⟨none, body⟩ :: _ => some fun _ => Stmt.executeList ctx body
  | ⟨some name, body⟩ :: _ => some fun v => do
    let number ← newRecord (bindName name v fun _ => none)
    Stmt.executeList { ctx with chain := .record number :: ctx.chain } body

end

namespace Meaning

/-- Call functions, nested at most as often as the bound says. -/
def callsWithin : Nat → Calls H
  | 0 => fun _ _ _ => throw .unfinished
  | n + 1 => fun number receiver args => do
    let s ← get
    match s.closures[number]? with
    | none => pure void
    | some f => do
      let all ← ask (callsWithin n) (.arguments args)
      let chain ← enter (bindName "arguments" all fun _ => none) f.code.params args f.code.body
        f.chain
      let exit ← Stmt.executeList (callsWithin n) n ⟨chain, receiver⟩ f.code.body
      match exit with
      | .returned v => pure v
      | _ => pure void

end Meaning

/-- Run a program at a place. -/
def Program.execute (bound : Nat) (ctx : Context H.Datum) (p : Program) :
    Eval H (Exit H.Datum) := do
  let chain ← enter (fun _ => none) [] [] p.body ctx.chain
  Stmt.executeList (callsWithin bound) bound { ctx with chain } p.body

end EcmaLua
