import EcmaLua.Surface.Reader.Function
import EcmaLua.Surface.Reader.Target

/-!
# Expressions

The rules for expressions, from the tightest to the loosest. An arrow function is recognized
where its parameters have been read as an expression.
-/

namespace EcmaLua.Surface.Reader

variable (g : Grammar)

/-- The body of an arrow function that started at an offset, from behind its arrow. -/
def arrowBody (start : Nat) (isAsync : Bool) : Parser Expr := do
  withReader (fun c => functionContext false isAsync c.allowSuper c) do
    if ← atPunct "\x7b" then
      let _ ← g.block
    else
      let _ ← g.assignment
  pure (.foreign .arrow (← extentFrom start))

/-- One argument of a call, or one element of an array. -/
def argument : Parser Arg := do
  let dots ←
    if ← atPunct "..." then
      let extent ← tokenExtent
      advance
      pure (some extent)
    else pure none
  pure ⟨dots, ← withIn g.assignment⟩

/-- The arguments of a call in their parentheses. -/
def arguments : Parser (List Arg) := do
  expectPunct "("
  iterate (fun args => do
    if ← eatPunct ")" then pure (.inr args.reverse)
    else
      let arg ← argument g
      unless ← atPunct ")" do expectPunct ","
      pure (.inl (arg :: args))) []

/-- A template from its first quote on. Behind a function its escapes need no meaning. -/
def template (isTagged : Bool) : Parser Unit :=
  iterate (fun () => do
    let c ← get
    let (ending, meaningful, place) ← templateText true c.stop c.after
    unless isTagged || meaningful do fault .badEscape
    moveTo place
    match ending with
    | .quote => pure (.inr ())
    | .expression => do
      let _ ← withIn g.expression
      unless ← atPunct "\x7d" do expected "\x7d"
      pure (.inl ())) ()

/-- Items in parentheses, the last of which started at an offset and is followed by an arrow that
is passed. If the first item is a name, the items are the parameters of a function that is one
more item; else nothing comes of the arrow. Items are in reverse order. -/
def strayArrow (start : Nat) (items : List Arg) : Parser (List Arg) := do
  match items.getLast? with
  | some ⟨_, .ident _⟩ => do
    unless Arg.areParameters items.reverse do fault .badTarget
    pure (⟨none, ← arrowBody g start false⟩ :: items)
  | _ => pure items

/-- The items in parentheses: an expression, arguments or parameters. -/
def parenthesized : Parser (List Arg) := do
  expectPunct "("
  iterate (fun items => do
    if ← eatPunct ")" then pure (.inr items.reverse)
    else
      let start ← here
      let found := (← argument g) :: items
      let items' ← if ← eatPunct "=>" then strayArrow g start found else pure found
      unless ← atPunct ")" do expectPunct ","
      pure (.inl items')) []

/-- An arrow function with these parameters, from its arrow on, if an arrow follows. -/
def arrowAfter? (start : Nat) (isAsync arrowAllowed : Bool) (items : List Arg) :
    Parser (Option Expr) := do
  let c ← get
  if c.token == .punct "=>" then
    if c.newline || !arrowAllowed || !Arg.areParameters items then fault .badTarget
    else do
      advance
      some <$> arrowBody g start isAsync
  else pure none

/-- What stands in parentheses as an expression. -/
def Arg.grouped? : List Arg → Option Expr
  | [⟨none, e⟩] => some (.paren e)
  | [] | [_] => none
  | args =>
    if args.all fun arg => arg.dots.isNone then some (.paren (.seq (args.map Arg.value)))
    else none

/-- An expression in parentheses, or an arrow function that starts with them. -/
def parenRule (arrowAllowed : Bool) : Parser Expr := do
  let start ← here
  let items ← parenthesized g
  match ← arrowAfter? g start false arrowAllowed items with
  | some e => pure e
  | none =>
    match Arg.grouped? items with
    | some e => pure e
    | none => expected "=>"

def arrayRule : Parser Expr := do
  let start ← here
  expectPunct "["
  let elements ← iterate (fun elements => do
    if ← eatPunct "]" then pure (.inr elements.reverse)
    else if ← eatPunct "," then pure (.inl (none :: elements))
    else
      let element ← argument g
      unless ← atPunct "]" do expectPunct ","
      pure (.inl (some element :: elements))) ([] : List (Option Arg))
  pure (.array elements (← extentFrom start))

/-- A method of an object literal from its parameters on. -/
def objectMethod (start : Nat) (isGenerator isAsync : Bool) : Parser Func :=
  functionFrom g start { isGenerator, isAsync, isMethod := true }

/-- A member whose first word stands in front of a key. -/
def modifiedMember (start : Nat) (word : String) : Parser Member := do
  match word with
  | "get" => do
    let key ← propertyKey g
    pure (.getter key (← objectMethod g start false false).extent)
  | "set" => do
    let key ← propertyKey g
    pure (.setter key (← objectMethod g start false false).extent)
  | "async" => do
    let isGenerator ← eatPunct "*"
    let key ← propertyKey g
    pure (.method key (← objectMethod g start isGenerator true))
  | _ => expected ":"

/-- A member from behind its first key. Any word can be a shorthand. -/
def memberFrom (start : Nat) (key : Key) : Parser Member := do
  if ← eatPunct ":" then pure (.keyValue key (← withIn g.assignment))
  else if ← atPunct "(" then pure (.method key (← objectMethod g start false false))
  else
    match key with
    | .ident name =>
      if ← eatPunct "=" then
        let _ ← withIn g.assignment
        pure (.assigned name (← extentFrom start))
      else if (← atPunct ",") || (← atPunct "\x7d") then pure (.shorthand name)
      else modifiedMember g start name
    | _ => expected ":"

/-- A member of an object literal. -/
def memberRule : Parser Member := do
  let start ← here
  if ← atPunct "..." then
    let dots ← tokenExtent
    advance
    pure (.spread dots (← withIn g.assignment))
  else if ← eatPunct "*" then
    let key ← propertyKey g
    pure (.method key (← objectMethod g start true false))
  else memberFrom g start (← propertyKey g)

def objectRule : Parser Expr := do
  expectPunct "\x7b"
  let members ← iterate (fun members => do
    if ← eatPunct "\x7d" then pure (.inr members.reverse)
    else
      let member ← memberRule g
      unless ← atPunct "\x7d" do expectPunct ","
      pure (.inl (member :: members))) ([] : List Member)
  pure (.object members)

/-- A regular expression, whose slash was scanned as an operator. -/
def regexRule : Parser Expr := do
  let c ← get
  let text := if c.token == .punct "/=" then '=' :: c.after else c.after
  let (pattern, flags, place) ← scanRegex c.limit ⟨c.start + 1, text⟩
  moveTo place
  pure (.regex pattern flags)

/-- A property of `super`, which a method allows, or a call of it, which cannot stand behind
`new`. -/
def superRule (calls : Bool) : Parser Expr := do
  let start ← here
  let word ← tokenExtent
  advance
  if calls && (← atPunct "(") then
    let _ ← arguments g
    pure (.foreign .superCall word)
  else if !(← read).allowSuper then fault (.reservedName "super")
  else if ← eatPunct "." then
    let _ ← anyWord
    pure (.foreign .superMember (← extentFrom start))
  else if ← eatPunct "[" then
    let _ ← withIn g.expression
    expectPunct "]"
    pure (.foreign .superMember (← extentFrom start))
  else expected "."

/-- The arguments of an import, which end without a comma; the import is located at its
function. -/
def importFrom (start : Nat) : Parser Expr := do
  let word ← extentFrom start
  expectPunct "("
  unless ← eatPunct ")" do
    iterate (fun () => do
      let _ ← argument g
      if ← eatPunct ")" then pure (.inr ())
      else
        expectPunct ","
        pure (.inl ())) ()
  pure (.foreign .importCall word)

/-- A dynamic import, perhaps in one of its phases. -/
def importRule : Parser Expr := do
  let start ← here
  advance
  if ← eatPunct "." then
    let phase ← anyWord
    unless phase == "defer" || phase == "source" do expected "source"
  importFrom g start

/-- An object made by a function, or the meta property of that name. -/
def newRule : Parser Expr := do
  let start ← here
  expectWord "new"
  if ← eatPunct "." then
    expectWord "target"
    pure (.foreign .metaProperty (← extentFrom start))
  else
    let callee ← g.callee
    let args ← if ← atPunct "(" then arguments g else pure []
    pure (.new callee args)

def classRule : Parser Expr := do
  let start ← here
  withStrict do
    expectWord "class"
    let _ ← optionalName
    classTail g
  pure (.foreign .classExpr (← extentFrom start))

/-- Whether the parameter of an asynchronous arrow function follows on the same line. The head of
a loop over what a variable of that name takes has no such parameter. -/
def atAsyncParameter : Parser Bool := do
  let c ← get
  if c.newline || !c.token.isWord || c.token.isReserved (← read) then pure false
  else if c.token.keyword? == some "of" then pure ((← peek).token == .punct "=>")
  else pure true

/-- A name, or an arrow function with one parameter. -/
def nameRule (arrowAllowed : Bool) : Parser Expr := do
  let c ← get
  if c.token.isReserved (← read) && c.token.keyword? != some "let" then
    fault (.reservedName (c.token.name?.getD ""))
  else
    let name ← anyWord
    if arrowAllowed && name == "async" && (← atAsyncParameter) then
      let _ ← bindingName
      expectPunct "=>"
      arrowBody g c.start true
    else
      match ← if arrowAllowed && !(← get).newline then
          arrowAfter? g c.start false true [] else pure none with
      | some e => pure e
      | none => pure (.ident name)

/-- What starts with `async`: a function, an arrow function, a call, or the name. -/
def asyncRule (arrowAllowed : Bool) : Parser Expr := do
  let start ← here
  let next ← peek
  if next.newline then nameRule g arrowAllowed
  else if next.token.keyword? == some "function" then
    advance
    functionExpression g start true
  else if arrowAllowed && next.token == .punct "(" then
    advance
    let items ← parenthesized g
    match ← arrowAfter? g start true true items with
    | some e => pure e
    | none => pure (.call (.ident "async") items (← extentFrom start))
  else nameRule g arrowAllowed

/-- An expression that starts with a keyword; `calls` when calls can follow. -/
def wordRule (word : String) (calls arrowAllowed : Bool) : Parser Expr := do
  match word with
  | "this" => do
    advance
    pure .this
  | "null" => do
    advance
    pure .null
  | "true" => do
    advance
    pure (.bool true)
  | "false" => do
    advance
    pure (.bool false)
  | "function" => do functionExpression g (← here) false
  | "class" => classRule g
  | "new" => newRule g
  | "super" => superRule g calls
  | "import" => if calls then importRule g else fault (.reservedName "import")
  | "async" => asyncRule g arrowAllowed
  | _ => nameRule g arrowAllowed

/-- An expression without operators around it; `calls` when calls can follow. -/
def primary (calls : Bool) : Parser Expr := do
  let c ← get
  let arrowAllowed := (← read).arrowStart == some c.start
  match c.token with
  | .number value => do
    advance
    pure (.number value)
  | .bigint _ => do
    let extent ← tokenExtent
    advance
    pure (.foreign .bigint extent)
  | .string points => do
    advance
    pure (.string points)
  | .backquote => do
    template g false
    pure (.foreign .template (← extentFrom c.start))
  | .punct "#" => do
    advance
    let _ ← anyWord
    pure (.foreign .privateName (← extentFrom c.start))
  | .punct "(" => parenRule g arrowAllowed
  | .punct "[" => arrayRule g
  | .punct "\x7b" => objectRule g
  | .punct "/" | .punct "/=" => regexRule
  | .word .. =>
    match c.token.keyword? with
    | some word => wordRule g word calls arrowAllowed
    | none => nameRule g arrowAllowed
  | _ => expected "an expression"

/-- The key behind a point: a name, or a private name with its extent. -/
def dotKey : Parser (String ⊕ Extent) := do
  let start ← here
  if ← atPunct "#" then
    privateName
    pure (.inr (← extentFrom start))
  else pure (.inl (← anyWord))

/-- The rest of an optional chain's link, from behind its mark. -/
def chainLink : Parser Unit := do
  if ← atPunct "(" then
    let _ ← arguments g
  else if ← eatPunct "[" then
    let _ ← withIn g.expression
    expectPunct "]"
  else
    let _ ← dotKey

/-- Whether an optional chain goes on here. -/
def atChainMark : Parser Bool := do
  if ← atPunct "?" then pure ((← peek).token == .punct ".") else pure false

/-- Properties, calls and templates behind an expression that started at an offset. A name that
is spelled like the word for imports is called like it. -/
def subscripts (start : Nat) (calls : Bool) (e : Expr) : Parser Expr :=
  iterate (fun e => do
    let chained (plain : Expr) : Parser (Expr ⊕ Expr) := do
      if e.isChain then pure (.inl (.foreign .optionalChain (← extentFrom start)))
      else pure (.inl plain)
    if e.isArrow then pure (.inr e)
    else
      match (← get).token with
      | .punct "." => do
        advance
        match ← dotKey with
        | .inl name => chained (.member e name)
        | .inr extent => chained (.foreign .privateMember extent)
      | .punct "?" =>
        if ← atChainMark then do
          unless calls do expected "("
          advance
          advance
          chainLink g
          pure (.inl (.foreign .optionalChain (← extentFrom start)))
        else pure (.inr e)
      | .punct "[" => do
        advance
        let key ← withIn g.expression
        expectPunct "]"
        chained (.index e key)
      | .punct "(" =>
        if calls then
          match e with
          | .ident "import" => do pure (.inl (← importFrom g start))
          | e => do
            let args ← arguments g
            chained (.call e args (← extentFrom start))
        else pure (.inr e)
      | .backquote => do
        if e.isChain then expected "."
        template g true
        pure (.inl (.foreign .taggedTemplate (← extentFrom start)))
      | _ => pure (.inr e)) e

/-- What can stand behind `new`. -/
def calleeRule : Parser Expr := do
  let start ← here
  subscripts g start false (← primary g false)

/-- An expression of properties and calls. -/
def leftHandRule : Parser Expr := do
  let start ← here
  subscripts g start true (← primary g true)

def prefixOperator? (token : Token) : Option UnaryOp :=
  match token with
  | .punct "!" => some .not
  | .punct "~" => some .bitNot
  | .punct "+" => some .plus
  | .punct "-" => some .minus
  | _ =>
    match token.keyword? with
    | some "delete" => some .delete
    | some "void" => some .void
    | some "typeof" => some .typeof
    | _ => none

def updateOperator? : Token → Option UpdateOp
  | .punct "++" => some .increment
  | .punct "--" => some .decrement
  | _ => none

/-- An expression with an operator behind it, or without. -/
def postfixRule : Parser Expr := do
  let start ← here
  let e ← g.leftHand
  let c ← get
  match updateOperator? c.token with
  | some op =>
    if c.newline || e.isArrow then pure e
    else if e.isPlace then do
      advance
      pure (.update op false e (← extentFrom start))
    else fault .badTarget
  | none => pure e

/-- Whether the word `await` before the current token was a name: outside asynchronous functions
it is one where an expression ends. -/
def awaitIsName : Parser Bool := do
  if (← read).inAsync then pure false
  else
    pure ((← atStatementEnd) || (← atPunct ")") || (← atPunct "]") || (← atPunct ","))

/-- What starts with `await`. -/
def awaitRule : Parser Expr := do
  let start ← here
  advance
  if ← awaitIsName then pure (.ident "await")
  else
    let _ ← g.unary
    pure (.foreign .awaitExpr (← extentFrom start))

def unaryRule : Parser Expr := do
  let c ← get
  match prefixOperator? c.token, updateOperator? c.token with
  | some op, _ => do
    advance
    pure (.unary op (← g.unary))
  | none, some op => do
    advance
    let e ← g.unary
    if e.isPlace then pure (.update op true e (← extentFrom c.start)) else fault .badTarget
  | none, none => if ← atWord "await" then awaitRule g else postfixRule g

/-- The binary operators, each with how tightly it binds. -/
def binaryOperators : List (Token × BinOp × Nat) :=
  [(.punct "??", .nullish, 1), (.punct "||", .logical .or, 2), (.punct "&&", .logical .and, 3),
    (.punct "|", .plain .bitOr, 4), (.punct "^", .plain .bitXor, 5),
    (.punct "&", .plain .bitAnd, 6), (.punct "==", .plain .eq, 7), (.punct "!=", .plain .ne, 7),
    (.punct "===", .plain .strictEq, 7),
    (.punct "!==", .plain .strictNe, 7), (.punct "<", .plain .lt, 8), (.punct ">", .plain .gt, 8),
    (.punct "<=", .plain .le, 8), (.punct ">=", .plain .ge, 8),
    (.word "instanceof" .plain, .plain .instanceOf, 8), (.word "in" .plain, .plain .isIn, 8),
    (.punct "<<", .plain .shl, 9), (.punct ">>", .plain .shr, 9), (.punct ">>>", .plain .ushr, 9),
    (.punct "+", .plain .add, 10), (.punct "-", .plain .sub, 10), (.punct "*", .plain .mul, 11),
    (.punct "/", .plain .div, 11), (.punct "%", .plain .mod, 11), (.punct "**", .plain .exp, 12)]

/-- The operator at the cursor that binds at least that tightly. -/
def binaryOperator? (least : Nat) : Parser (Option (BinOp × Nat)) := do
  let c ← get
  let context ← read
  match binaryOperators.lookup c.token with
  | some (op, level) =>
    if level < least || (op == .plain .isIn && !context.allowIn) then pure none
    else pure (some (op, level))
  | none => pure none

/-- Whether two operands need parentheses to be joined by an operator. -/
def needsParens (op : BinOp) (left right : Expr) : Bool :=
  match op with
  | .nullish => left.isLogical || right.isLogical
  | .logical _ => left.isNullish || right.isNullish
  | .plain .exp => left.isUnary
  | .plain _ => false

/-- Operations whose operators bind at least that tightly; powers associate to the right, all
others to the left. -/
def binaryRule (least : Nat) : Parser Expr := do
  let start ← here
  let first ← g.unary
  iterate (fun left => do
    if left.isArrow then pure (.inr left)
    else
      match ← binaryOperator? least with
      | none => pure (.inr left)
      | some (op, level) => do
        advance
        let right ← g.binary (if op == .plain .exp then level else level + 1)
        if needsParens op left right then expected "("
        else pure (.inl (.binary op left right (← extentFrom start)))) first

def conditionalRule : Parser Expr := do
  let test ← g.binary 0
  if test.isArrow then pure test
  else if ← eatPunct "?" then
    let cons ← withIn g.assignment
    expectPunct ":"
    pure (.cond test cons (← g.assignment))
  else pure test

/-- Whether a suspension has no operand before the current token. -/
def atYieldEnd : Parser Bool := do
  let c ← get
  let ends := [")", "]", ",", ":"].any fun text => c.token == .punct text
  pure (ends || c.token.keyword? == some "in" || (← atStatementEnd))

/-- A suspension of a generator, which its parameters have none of; the operand is optional. -/
def yieldRule : Parser Expr := do
  let start ← here
  if (← read).inParameters then fault (.reservedName "yield")
  expectWord "yield"
  unless ← atYieldEnd do
    let _ ← eatPunct "*"
    let _ ← g.assignment
  pure (.foreign .yieldExpr (← extentFrom start))

/-- The assignment operators. -/
def assignOperators : List (String × AssignOp) :=
  [("=", .plain), ("+=", .compound .add), ("-=", .compound .sub), ("*=", .compound .mul),
    ("/=", .compound .div), ("%=", .compound .mod), ("**=", .compound .exp),
    ("<<=", .compound .shl), (">>=", .compound .shr), (">>>=", .compound .ushr),
    ("&=", .compound .bitAnd), ("|=", .compound .bitOr), ("^=", .compound .bitXor),
    ("&&=", .logical), ("||=", .logical), ("??=", .logical)]

def assignOperator? : Token → Option AssignOp
  | .punct text => assignOperators.lookup text
  | _ => none

/-- An assignment from its operator on, to what was read as an expression. -/
def assignFrom (start : Nat) (op : AssignOp) (left : Expr) : Parser Expr := do
  let target ← extentFrom start
  if left.isSuperMember then
    advance
    let _ ← g.assignment
    pure (.assignForeign op (.expr target) (← extentFrom start))
  else if left.isPlace then
    advance
    let value ← g.assignment
    pure (.assign op left value (← extentFrom start))
  else
    match op, left.patternKind? with
    | .plain, some kind => do
      advance
      let _ ← g.assignment
      pure (.assignForeign op (.pattern kind target) (← extentFrom start))
    | _, _ => fault .badTarget

/-- Where an arrow function can start: at a parenthesis or a name, but for the names that are
keywords at the start of a statement or an operation. -/
def arrowStartAt (c : Cursor) : Option Nat :=
  match c.token.keyword? with
  | some "let" | some "await" => none
  | _ => some c.start

def assignmentRule : Parser Expr := do
  let start ← get
  if (← read).inGenerator && (← atWord "yield") then yieldRule g
  else
    let left ← withReader (fun c => { c with arrowStart := arrowStartAt start }) (conditionalRule g)
    match assignOperator? (← get).token with
    | some op => if left.isArrow then pure left else assignFrom g start.start op left
    | none => pure left

def expressionRule : Parser Expr := do
  let first ← g.assignment
  let items ← iterate (fun items => do
    if ← eatPunct "," then pure (.inl ((← g.assignment) :: items))
    else pure (.inr items.reverse)) [first]
  match items with
  | [e] => pure e
  | items => pure (.seq items)

end EcmaLua.Surface.Reader
