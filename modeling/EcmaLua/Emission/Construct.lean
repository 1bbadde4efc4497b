import EcmaLua.Emission.Rendition

/-!
# Statement constructs

The Lua code of each kind of statement, from the actions that make the code of its parts. The
order in which the parts act is the order in which names are made up and findings reported.
-/

namespace EcmaLua.Emission

open Lua (Helper)

/-- A test as a Lua boolean. -/
def condition (test : Rendition) : Emit Lua.Expr := do
  pure (Helper.toBoolean.call [← test.value])

/-- Blocks around labeled code, each with the label behind its end; the outermost label is
first. -/
def nested (labels : List String) (code : List Lua.Stat) : List Lua.Stat :=
  labels.foldr (fun label inner => [.doBlock (inner ++ [.label (afterLabel label)])]) code

/-- A labeled statement that is no loop. -/
def labeledCode (labels : List String) (code : Emit (List Lua.Stat)) : Emit (List Lua.Stat) := do
  pure (nested labels (← labeled labels code))

/-- A `return` ends its block, so that a label needs a block around it. -/
def labeledReturn (labels : List String) (code : Emit (List Lua.Stat)) :
    Emit (List Lua.Stat) := do
  let inner ← labeled labels code
  pure (nested labels (if labels.isEmpty then inner else [.doBlock inner]))

def returned : Option (Emit Lua.Expr) → Emit (List Lua.Stat)
  | none => pure [.ret .nil]
  | some value => do pure [.ret (← value)]

def thrown (value : Emit Lua.Expr) : Emit (List Lua.Stat) := do
  pure [.call (.call (.name "error") [.table [.keyed (.string "data") (← value)]])]

/-- A `break`; one that has no spelling is reported, and a comment is left in its place. -/
def breakCode (label : Option String) (span : Span) : Emit (List Lua.Stat) := do
  match ← breakJump label with
  | .leave => pure [.breakLoop]
  | .goTo name => pure [.goTo name]
  | .blocked => do
    report (.blockedBreak span)
    pure [.note "BreakStatement"]
  | .missing => do
    report (.strayBreak span)
    pure [.note "BreakStatement"]

/-- A `continue`; one that has no spelling is reported, and a comment is left in its place. -/
def continueCode (label : Option String) (span : Span) : Emit (List Lua.Stat) := do
  match ← continueJump label with
  | .leave => pure [.breakLoop]
  | .goTo name => pure [.goTo name]
  | .blocked => do
    report (.blockedContinue span)
    pure [.note "ContinueStatement"]
  | .missing => do
    report (.strayContinue span)
    pure [.note "ContinueStatement"]

/-- The body of a loop in a block of its own, and behind it the labels that `continue` goes to. -/
def loopBody (labels : List String) (body : Emit (List Lua.Stat)) : Emit (List Lua.Stat) := do
  let (code, enclosure) ← enclosed (.loop labels none) body
  let landing :=
    match enclosure with
    | .loop _ (some name) => [Lua.Stat.label name]
    | _ => []
  pure (.doBlock code :: labels.map (fun label => Lua.Stat.label (Lua.spell label)) ++ landing)

def whileCode (labels : List String) (test : Rendition) (body : Emit (List Lua.Stat)) :
    Emit (List Lua.Stat) := do
  let c ← condition test
  let code ← loopBody labels body
  pure [.whileLoop c code]

def doWhileCode (labels : List String) (body : Emit (List Lua.Stat)) (test : Rendition) :
    Emit (List Lua.Stat) := do
  let code ← loopBody labels body
  let c ← condition test
  pure [.repeatUntil code (.unop .not c)]

/-- A `for` loop is a `while` loop behind its start, with its update at the end of the body. -/
def forCode (labels : List String) (init : Emit (List Lua.Stat)) (test : Option Rendition)
    (update : Emit (List Lua.Stat)) (body : Emit (List Lua.Stat)) : Emit (List Lua.Stat) := do
  let start ← init
  let c ←
    match test with
    | none => pure (.bool true)
    | some test => condition test
  let code ← loopBody labels body
  let step ← update
  pure (start ++ [.whileLoop c (code ++ step)])

/-- A `for`-`in` loop; `head` gives the name of the key and the code that stores it. -/
def forInCode (labels : List String) (object : Rendition)
    (head : Emit (String × List Lua.Stat)) (body : Emit (List Lua.Stat)) :
    Emit (List Lua.Stat) := do
  let o ← object.value
  let ignored ← fresh "__tmp"
  let (key, store) ← head
  let code ← loopBody labels body
  pure [.forIn key ignored (Helper.iterate.call [o]) (store ++ code)]

/-- The selection of a case by its number, zero for none of them. -/
def selection (selected : String) (arms : List Lua.Arm) (default : Option Nat) :
    List Lua.Stat :=
  let otherwise := default.map fun n => Lua.Step.assign (.name selected) (.int n)
  match arms, default with
  | [], none => []
  | [], some n => [.assign (.name selected) (.int n)]
  | arms, _ => [.select arms otherwise]

/-- A `switch` is a loop that runs once, so that `break` leaves it: first the number of the
matching case is found, then every case from there on runs. -/
def switchCode (discriminant : Rendition)
    (arms : (value selected : String) → Emit (List Lua.Arm)) (default : Option Nat)
    (bodies : (selected : String) → Emit (List Lua.Stat)) : Emit (List Lua.Stat) := do
  let value ← fresh "__tmp"
  let selected ← fresh "__tmp"
  let d ← discriminant.value
  let tests ← arms value selected
  let (code, _) ← enclosed .switch (bodies selected)
  pure [.repeatUntil
    ([.define [value] d, .define [selected] (.int 0)] ++ selection selected tests default ++ code)
    (.bool true)]

/-- One arm of the selection: the case with the number `n` matches. -/
def caseArm (value selected : String) (n : Nat) (test : Lua.Expr) : Lua.Arm :=
  .mk (Helper.rawEqual.call [.name value, test]) (.assign (.name selected) (.int n))

/-- The body of the case with the number `n`, which runs when it or a case before it was
selected. -/
def caseBody (selected : String) (n : Nat) (body : List Lua.Stat) : Lua.Stat :=
  .ifThen
    (.binop .and (.binop .ne (.name selected) (.int 0)) (.binop .le (.name selected) (.int n)))
    body .none

/-- The locals of a `try` statement. -/
structure TryNames where
  status : String
  value : String
  catchValue : String
  finalizer : String
  handler : String

/-- The code of a `try` statement: the protected body and the two closures, then what follows
when the body returned a value, when it failed, and when neither happened. -/
def tryPhases (names : TryNames) (body : List Lua.Stat) (finalizer : Option (List Lua.Stat))
    (handler : Option (List String × List Lua.Stat)) : List Lua.Stat :=
  let status : Lua.Expr := .name names.status
  let value : Lua.Expr := .name names.value
  let finish : List Lua.Stat :=
    match finalizer with
    | none => []
    | some _ => [.call (.call (.name names.finalizer) [])]
  let finalizerPhase : List Lua.Stat :=
    match finalizer with
    | none => []
    | some code =>
      [.marker "Finally", .define [names.finalizer] (.paren (.func [] false code))]
  let handlerPhase : List Lua.Stat :=
    match handler with
    | none => []
    | some (params, code) =>
      [.marker "Catch", .define [names.handler] (.paren (.func params false code))]
  let failed : List Lua.Stat :=
    match handler with
    | none => finish ++ [.call (.call (.name "error") [value, .int 0])]
    | some _ =>
      [.define [names.catchValue]
          (.call (.name names.handler) [.binop .or (.field value "data") value])]
        ++ finish ++ [.ret (.name names.catchValue)]
  let finalizerOnly : List Lua.Stat :=
    match finalizer with
    | none => []
    | some _ => .marker "JustFinalizer" :: finish
  [.marker "TryBody",
      .define [names.status, names.value] (.call (.name "pcall") [.func [] false body])]
    ++ finalizerPhase ++ handlerPhase
    ++ [.marker "EarlyReturn",
      .ifThen (.binop .and status (.binop .ne .nil value)) (finish ++ [.ret value]) .none,
      .marker "CheckCatch",
      .ifThen (.unop .not status) failed .none]
    ++ finalizerOnly

/-- The body of a `catch` clause, with its parameter bound. -/
def handlerCode (param : Option String) (body : Emit (List Lua.Stat)) :
    Emit (List String × List Lua.Stat) := do
  let params := param.toList
  let code ← inFrame (.lexical "catch" [] [] params) do
    let _ ← declareNew params
    walled body
  pure (params.map Lua.spell, code)

/-- A `try` statement; of several `catch` clauses the first is used, and the rest reported. -/
def tryCode (span : Span) (body : Emit (List Lua.Stat)) (clauses : Nat)
    (handler : Option (Emit (List String × List Lua.Stat)))
    (finalizer : Option (Emit (List Lua.Stat))) : Emit (List Lua.Stat) := do
  let status ← fresh "__TryStatus"
  let value ← fresh "__TryReturnValue"
  let catchValue ← fresh "__CatchReturnValue"
  let finalizerName ← fresh "__TryFinalizer"
  let handlerName ← fresh "__TryHandler"
  let notes ←
    if clauses ≤ 1 then pure []
    else do
      report (.manyCatches clauses span)
      pure [Lua.Stat.note "MultipleCatchClauses"]
  let code ← walled body
  let final ←
    match finalizer with
    | none => pure none
    | some act => some <$> walled act
  let caught ←
    match handler with
    | none => pure none
    | some act => some <$> act
  let names : TryNames := ⟨status, value, catchValue, finalizerName, handlerName⟩
  pure (notes ++ [.doBlock (tryPhases names code final caught)])

/-- A `with` statement: its object is a local of the block, and the names that it may hold are
reported. -/
def withCode (span : Span) (object : Rendition) (body : Emit (List Lua.Stat)) :
    Emit (List Lua.Stat) := do
  let proxy ← fresh "__tmp"
  let o ← object.value
  let (code, names) ← inFrame (.object "with" proxy) (capturing body)
  report (.withScope names span)
  pure [.scoped proxy (Helper.toObject.call [o]) code]

def unsupportedCode (node : Unsupported) : Emit (List Lua.Stat) := do
  report (.unsupported node)
  pure [.note node.kind]

/-- The function of a parameter list and a body. The receiver is the first parameter; a body
that mentions `arguments` takes all others packed. -/
def functionCode (params : List String) (names : Declarations) (body : Emit (List Lua.Stat)) :
    Emit Lua.Expr := do
  let packed := names.references "arguments"
  let bound := if packed then params ++ ["arguments"] else params
  let spelled := params.map Lua.spell
  let code ← detached (inFrame (.lexical "function" names.vars names.funcs bound) do
    let _ ← declareNew bound
    let locals ← declareLocals names.funcs
    pure (locals ++ (← body)))
  let f : Lua.Expr :=
    if packed then
      let unpacked : List Lua.Stat :=
        if spelled.isEmpty then [] else [.define spelled .vararg]
      .func ["self"] true
        (unpacked ++
          [.define ["arguments"] (.call (.field (.name "table") "pack") [.vararg]),
            .assign (.field (.name "arguments") "__Length") (.field (.name "arguments") "n")]
          ++ code)
    else .func ("self" :: spelled) false code
  pure (Helper.defineFunction.call [f])

/-- A function expression. One that mentions its own name gets a local of that name around it. -/
def functionValue (name : Option String) (references : List String) (literal : Emit Lua.Expr) :
    Emit Lua.Expr :=
  match name with
  | none => literal
  | some name =>
    if references.contains name then do
      let f ← inFrame (.lexical "named-function" [] [name] []) do
        let _ ← declareNew [name]
        literal
      let self := Lua.spell name
      pure (.call (.paren (.func [] false
        [.declare [self], .assign (.name self) f, .ret (.name self)])) [])
    else literal

/-- A function declaration; one without a name is reported. -/
def functionDeclaration (name : Option String) (literal : Emit Lua.Expr) :
    Emit (List Lua.Stat) :=
  match name with
  | none => do
    report .namelessFunction
    pure []
  | some name => do
    let locals ← declareLocals [name]
    let target ← Rendition.bareName name
    let f ← literal
    pure (locals ++ [.assign target f])

/-- The first value of a variable. -/
def initialized (name : String) (value : Emit Lua.Expr) : Emit (List Lua.Stat) := do
  let target ← Rendition.bareName name
  pure [.assign target (← value)]

end EcmaLua.Emission
