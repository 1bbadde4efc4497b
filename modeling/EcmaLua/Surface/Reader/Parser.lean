import EcmaLua.Surface.Reader.Token
import EcmaLua.Surface.Basic

/-!
# Parsers

A parser looks at one token at a time. Around it is a context, which says what the enclosing
constructs allow; it can stop at a fault, and it collects the misplaced jumps that it passes.
-/

namespace EcmaLua.Surface.Reader

/-- What the constructs around a place allow. -/
structure Context where
  inFunction : Bool := false
  /-- in the parameters of a function, outside functions in them -/
  inParameters : Bool := false
  inGenerator : Bool := false
  inAsync : Bool := false
  inStaticBlock : Bool := false
  /-- inside a class, or behind the directive for strict code -/
  strict : Bool := false
  /-- inside a method, where properties of `super` are read -/
  allowSuper : Bool := false
  /-- inside a loop, a `switch` or a labeled statement of the same function -/
  canBreak : Bool := false
  /-- inside a loop of the same function -/
  canContinue : Bool := false
  /-- the labels around the place in the same function -/
  labels : List String := []
  /-- whether `in` is an operator here -/
  allowIn : Bool := false
  /-- where the current assignment expression starts; only there can an arrow function start -/
  arrowStart : Option Nat := none

/-- Whether a keyword is no name in a context: the words for suspension are none where they
suspend, and strict code has more such words. -/
def isReservedIn (context : Context) (word : String) : Bool :=
  reservedWords.contains word
    || (word == "yield" && (context.inGenerator || context.strict))
    || (word == "await" && (context.inAsync || context.inStaticBlock || context.strict))
    || (context.strict && (word == "let" || strictWords.contains word))

def Token.isReserved (context : Context) (token : Token) : Bool :=
  token.keyword?.any (isReservedIn context)

/-- Whether a token is a reserved word in spite of an escape in it. -/
def Token.isDisguised (context : Context) (token : Token) : Bool :=
  match token with
  | .word letters (.verbatim _) => isReservedIn context letters
  | _ => false

/-- The current token with its surroundings. -/
structure Cursor where
  token : Token
  /-- the offsets of the token's first byte and of the byte behind its last -/
  start : Nat
  stop : Nat
  /-- whether a line end comes between the token before and this one -/
  newline : Bool
  /-- the text from behind the token on -/
  after : List Char
  /-- the offset behind the token before -/
  previous : Nat
  /-- a bound on the length of the text -/
  limit : Nat
  misplaced : List (Misplaced × Extent)

abbrev Parser := ReaderT Context (StateT Cursor (Except SyntaxError))

/-- The cursor at the first token from a place on. -/
def scanFrom (limit previous : Nat) (place : Place) (newline : Bool) : Scan Cursor := do
  let (here, newline') ← skipGap place.offset newline .blank place.rest
  let (token, after) ← scanToken limit here
  pure ⟨token, here.offset, after.offset, newline', after.rest, previous, limit, []⟩

/-- Move on to the first token from a place on. -/
def moveTo (place : Place) : Parser Unit := do
  let c ← get
  let next ← scanFrom c.limit place.offset place false
  if next.token.isDisguised (← read) then throw ⟨.badEscape, next.start⟩
  else set { next with misplaced := c.misplaced }

/-- Pass the current token. -/
def advance : Parser Unit := do
  let c ← get
  moveTo ⟨c.stop, c.after⟩

/-- The cursor behind the current token. -/
def peek : Parser Cursor := do
  let c ← get
  scanFrom c.limit c.stop ⟨c.stop, c.after⟩ false

/-- Stop at the current token. -/
def fault {α : Type} (f : Fault) : Parser α := do
  throw ⟨f, (← get).start⟩

def expected {α : Type} (what : String) : Parser α := fault (.expected what)

/-- Whether the current token is this operator or bracket. -/
def atPunct (text : String) : Parser Bool := do
  pure ((← get).token == .punct text)

/-- Whether the current token is this keyword. -/
def atWord (word : String) : Parser Bool := do
  pure ((← get).token.keyword? == some word)

def atStop : Parser Bool := do
  pure ((← get).token == .stop)

/-- Pass this operator or bracket if it is there. -/
def eatPunct (text : String) : Parser Bool := do
  if ← atPunct text then
    advance
    pure true
  else pure false

/-- Pass this keyword if it is there. -/
def eatWord (word : String) : Parser Bool := do
  if ← atWord word then
    advance
    pure true
  else pure false

def expectPunct (text : String) : Parser Unit := do
  unless ← eatPunct text do expected text

def expectWord (word : String) : Parser Unit := do
  unless ← eatWord word do expected word

/-- The offset of the current token. -/
def here : Parser Nat := do
  pure (← get).start

/-- The extent from an offset to the end of the token before; positions count from one. -/
def extentFrom (start : Nat) : Parser Extent := do
  pure ⟨start + 1, (← get).previous + 1⟩

/-- The extent of the current token. -/
def tokenExtent : Parser Extent := do
  let c ← get
  pure ⟨c.start + 1, c.stop + 1⟩

/-- Whether a statement can end before the current token. -/
def atStatementEnd : Parser Bool := do
  let c ← get
  pure (c.newline || c.token == .punct ";" || c.token == .punct "\x7d" || c.token == .stop)

/-- End a statement: with a semicolon, or without one at the end of a line or block. -/
def semicolon : Parser Unit := do
  unless ← eatPunct ";" do
    unless ← atStatementEnd do expected ";"

/-- Note a misplaced jump that started at an offset. -/
def misplace (m : Misplaced) (start : Nat) : Parser Unit := do
  let extent ← extentFrom start
  modify fun c => { c with misplaced := c.misplaced ++ [(m, extent)] }

/-- Take steps until one gives a result; each step passes a token or is the last. -/
def iterateWithin {α β : Type} (step : α → Parser (α ⊕ β)) : Nat → α → Parser β
  | 0, _ => fault .tooDeep
  | n + 1, a => do
    match ← step a with
    | .inl next => iterateWithin step n next
    | .inr result => pure result

def iterate {α β : Type} (step : α → Parser (α ⊕ β)) (a : α) : Parser β := do
  iterateWithin step (← get).limit a

/-- Pass any word. -/
def anyWord : Parser String := do
  match (← get).token.name? with
  | some name => do
    advance
    pure name
  | none => expected "a name"

/-- Pass a private name, whose sign is not parted from it. -/
def privateName : Parser Unit := do
  expectPunct "#"
  let c ← get
  if c.start == c.previous then
    let _ ← anyWord
  else expected "a name"

/-- Whether a keyword can be bound nowhere in a context. -/
def isUnbindable (context : Context) (word : String) : Bool :=
  reservedWords.contains word
    || (word == "await" && (context.inAsync || context.inStaticBlock))

/-- Pass the name of a variable that is declared, or of a label. -/
def bindingName : Parser String := do
  let c ← get
  if c.token.keyword?.any (isUnbindable (← read)) then fault (.reservedName (c.token.name?.getD ""))
  else anyWord

/-- The name of a function or class expression, which is left out in front of a token that is no
name. -/
def optionalName : Parser (Option String) := do
  let c ← get
  if c.token.isWord && !c.token.isReserved (← read) then some <$> bindingName else pure none

/-- Read a part in which `in` is an operator again. -/
def withIn {α : Type} (p : Parser α) : Parser α :=
  withReader (fun context => { context with allowIn := true }) p

/-- The context of a function's body. -/
def functionContext (isGenerator isAsync isMethod : Bool) (c : Context) : Context where
  inFunction := true
  inGenerator := isGenerator
  inAsync := isAsync
  strict := c.strict
  allowSuper := isMethod
  allowIn := c.allowIn

/-- The context of a function's parameters, from that of its body. -/
def parameterContext (c : Context) : Context :=
  { c with inFunction := false, inParameters := true }

/-- Whether a token is the directive for strict code. -/
def Cursor.isStrictDirective (c : Cursor) : Bool :=
  c.token == .string ("use strict".toList.map Char.toNat) && c.stop == c.start + 12

/-- Read statements that a directive can make strict, given the first token of them. -/
def withDirective {α : Type} (first : Cursor) (p : Parser α) : Parser α :=
  withReader (fun c => { c with strict := c.strict || first.isStrictDirective }) p

end EcmaLua.Surface.Reader
