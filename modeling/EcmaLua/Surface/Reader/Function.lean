import EcmaLua.Surface.Reader.Grammar

/-!
# Functions and classes

Binding patterns, parameters, function bodies, property keys, and classes. Of a pattern only its
kind and extent are kept, of a class only that it is one.
-/

namespace EcmaLua.Surface.Reader

variable (g : Grammar)

/-- The key of a property. -/
def propertyKey : Parser Key := do
  match (← get).token with
  | .word .. => do pure (.ident (← anyWord))
  | .string points => do
    advance
    pure (.string points)
  | .number value => do
    advance
    pure (.number value)
  | .bigint value => do
    advance
    pure (.bigint value)
  | .punct "[" => do
    advance
    let e ← withIn g.assignment
    expectPunct "]"
    pure (.computed e)
  | _ => expected "a property name"

/-- A pattern with a default value, or without. -/
def bindingElement : Parser Pattern := do
  let start ← here
  let pattern ← g.binding
  if ← eatPunct "=" then
    let _ ← withIn g.assignment
    pure (.other .assignment (← extentFrom start))
  else pure pattern

/-- The elements of an array pattern, from behind its bracket. -/
def arrayBinding : Parser Unit :=
  iterate (fun () => do
    if ← eatPunct "]" then pure (.inr ())
    else if ← eatPunct "," then pure (.inl ())
    else
      let _ ← if ← eatPunct "..." then g.binding else bindingElement g
      unless ← atPunct "]" do expectPunct ","
      pure (.inl ())) ()

/-- One property of an object pattern. A word alone is both its key and what is bound. -/
def bindingProperty : Parser Unit := do
  match ← propertyKey g with
  | .ident _ =>
    if ← eatPunct ":" then
      let _ ← bindingElement g
    else if ← eatPunct "=" then
      let _ ← withIn g.assignment
  | _ =>
    expectPunct ":"
    let _ ← bindingElement g

/-- The properties of an object pattern, from behind its brace. -/
def objectBinding : Parser Unit :=
  iterate (fun () => do
    if ← eatPunct "\x7d" then pure (.inr ())
    else
      if ← eatPunct "..." then
        let _ ← bindingName
      else bindingProperty g
      unless ← atPunct "\x7d" do expectPunct ","
      pure (.inl ())) ()

/-- What a declaration binds. -/
def bindingRule : Parser Pattern := do
  let start ← here
  if ← eatPunct "[" then
    arrayBinding g
    pure (.other .array (← extentFrom start))
  else if ← eatPunct "\x7b" then
    objectBinding g
    pure (.other .object (← extentFrom start))
  else pure (.ident (← bindingName))

/-- The parameters of a function in their parentheses. -/
def parameters : Parser (List Pattern) := do
  expectPunct "("
  iterate (fun params => do
    let start ← here
    if ← eatPunct ")" then pure (.inr params.reverse)
    else if ← eatPunct "..." then
      let _ ← g.binding
      let rest := Pattern.other .rest (← extentFrom start)
      expectPunct ")"
      pure (.inr (rest :: params).reverse)
    else
      let param ← bindingElement g
      unless ← atPunct ")" do expectPunct ","
      pure (.inl (param :: params))) []

/-- What kind of function the words and signs around a name make. -/
structure FunctionKind where
  isGenerator : Bool := false
  isAsync : Bool := false
  /-- whether it is a method, which can read properties of `super` -/
  isMethod : Bool := false

def FunctionKind.context (kind : FunctionKind) : Context → Context :=
  functionContext kind.isGenerator kind.isAsync kind.isMethod

/-- The statements of a function in their braces, which a directive can make strict. -/
def functionBody : Parser (List Stmt) := do
  withDirective (← peek) (withIn g.block)

/-- A function from its parameters on; `start` is where it began. -/
def functionFrom (start : Nat) (kind : FunctionKind) : Parser Func := do
  let (params, body) ← withReader kind.context do
    let params ← withReader parameterContext (parameters g)
    pure (params, ← functionBody g)
  pure ⟨params, body, kind.isGenerator, kind.isAsync, ← extentFrom start⟩

/-- The keyword of a function, and the kind of function that it starts. -/
def functionHead (isAsync : Bool) : Parser FunctionKind := do
  expectWord "function"
  let isGenerator ← eatPunct "*"
  pure { isGenerator, isAsync }

/-- A function declaration from its keyword on. Its name belongs to the code around it. -/
def functionDeclaration (start : Nat) (isAsync : Bool) : Parser Stmt := do
  let kind ← functionHead isAsync
  let name ← bindingName
  pure (.funcStmt name (← functionFrom g start kind))

/-- A function expression from its keyword on. The name it can have belongs to the function. -/
def functionExpression (start : Nat) (isAsync : Bool) : Parser Expr := do
  let kind ← functionHead isAsync
  let name ← withReader kind.context optionalName
  pure (.func name (← functionFrom g start kind))

/-- The key of a class element, none for a private name. -/
def elementKey : Parser (Option Key) := do
  if ← atPunct "#" then
    privateName
    pure none
  else some <$> propertyKey g

/-- Whether a key is this word. -/
def isKey (word : String) : Option Key → Bool
  | some (.ident name) => name == word
  | _ => false

/-- Whether a key names the constructor of a class. -/
def isConstructorKey : Option Key → Bool
  | some (.string points) => points == "constructor".toList.map Char.toNat
  | key => isKey "constructor" key

/-- Whether the current token shows that what came before is the key of a field. -/
def atFieldEnd : Parser Bool := do
  pure ((← atPunct "=") || (← atPunct "\x7d") || (← atPunct ";"))

/-- A field from behind its key. -/
def fieldFrom (key : Option Key) : Parser Unit := do
  if isConstructorKey key then expected "("
  if ← eatPunct "=" then
    let _ ← withIn g.assignment
  semicolon

/-- A method from its parameters on. -/
def methodFrom (start : Nat) (isGenerator isAsync : Bool) : Parser Unit := do
  let _ ← functionFrom g start { isGenerator, isAsync, isMethod := true }

/-- A class element from behind its key, which can turn out to be a word in front of another
key. A line end behind `async` makes it a field, one behind `get` or `set` only in front of a
generator. -/
def elementFrom (start : Nat) (key : Option Key) : Parser Unit := do
  let c ← get
  let isAccessor := (isKey "get" key || isKey "set" key) && !(← atFieldEnd)
    && !(c.newline && c.token == .punct "*")
  if c.token == .punct "(" then methodFrom g start false false
  else if isAccessor then
    let _ ← elementKey g
    methodFrom g start false false
  else if (← atFieldEnd) || (← atStatementEnd) then fieldFrom g key
  else if isKey "async" key then
    let isGenerator ← eatPunct "*"
    if isConstructorKey (← elementKey g) then expected "a method"
    methodFrom g start isGenerator true
  else expected "("

/-- A class element behind the word `static`, or without it. -/
def plainElement : Parser Unit := do
  let start ← here
  if ← eatPunct "*" then
    let _ ← elementKey g
    methodFrom g start true false
  else elementFrom g start (← elementKey g)

/-- One element of a class. The word `static` can be a key itself, or start a block. -/
def classElement : Parser Unit := do
  let start ← here
  if ← eatWord "static" then
    if ← atPunct "(" then methodFrom g start false false
    else if ← atFieldEnd then fieldFrom g (some (.ident "static"))
    else if ← atPunct "\x7b" then
      let _ ← withReader (fun c => { c with inStaticBlock := true }) g.block
    else plainElement g
  else plainElement g

/-- A class from behind its name; all of it is strict. -/
def classTail : Parser Unit := do
  if ← eatWord "extends" then
    let _ ← g.leftHand
  expectPunct "\x7b"
  withReader (fun c => { c with allowSuper := true }) do
    iterate (fun () => do
      if ← eatPunct "\x7d" then pure (.inr ())
      else if ← eatPunct ";" then pure (.inl ())
      else
        classElement g
        pure (.inl ())) ()

/-- Read a class, which is strict. -/
def withStrict {α : Type} (p : Parser α) : Parser α :=
  withReader (fun c => { c with strict := true }) p

end EcmaLua.Surface.Reader
