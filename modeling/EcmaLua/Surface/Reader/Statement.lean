import EcmaLua.Surface.Reader.Expression

/-!
# Statements

The rules for statements. A jump that has no target is noted and otherwise read like any other.
-/

namespace EcmaLua.Surface.Reader

variable (g : Grammar)

/-- The context of a loop's body. -/
def loopContext (c : Context) : Context := { c with canBreak := true, canContinue := true }

/-- The context of a `switch`. -/
def switchContext (c : Context) : Context := { c with canBreak := true }

/-- The context of a labeled statement. -/
def labelContext (label : String) (c : Context) : Context :=
  { c with canBreak := true, labels := label :: c.labels }

/-- The context of the body of a `with` statement, in which `return` is let pass. -/
def withContext (c : Context) : Context := { c with inFunction := true }

/-- Statements up to what ends their list. -/
def statementsUntil (atEnd : Parser Bool) : Parser (List Stmt) :=
  iterate (fun statements => do
    if ← atEnd then pure (.inr statements.reverse)
    else pure (.inl ((← g.item) :: statements))) []

def blockRule : Parser (List Stmt) := do
  expectPunct "\x7b"
  let statements ← statementsUntil g (atPunct "\x7d")
  expectPunct "\x7d"
  pure statements

/-- An expression in parentheses, as in the head of a statement. -/
def headExpression : Parser Expr := do
  expectPunct "("
  let e ← withIn g.expression
  expectPunct ")"
  pure e

/-- One declarator; lexical ones cannot bind the word that declares them. -/
def declarator (kind : VarKind) : Parser Declarator := do
  if kind != .var && (← atWord "let") then fault (.reservedName "let")
  let pattern ← g.binding
  if ← eatPunct "=" then pure ⟨pattern, some (← g.assignment)⟩ else pure ⟨pattern, none⟩

def declarators (kind : VarKind) : Parser (List Declarator) := do
  let first ← declarator g kind
  iterate (fun decls => do
    if ← eatPunct "," then pure (.inl ((← declarator g kind) :: decls))
    else pure (.inr decls.reverse)) [first]

/-- Whether a declarator has a first value, or can do without: a pattern cannot. -/
def isComplete (d : Declarator) : Bool :=
  d.init.isSome || match d.pattern with
    | .ident _ => true
    | .other .. => false

/-- Whether the word behind `let` makes it a declaration: something that can be bound. -/
def followsLet (token : Token) : Bool :=
  match token with
  | .word .. => !token.keyword?.any reservedWords.contains
  | .punct "[" | .punct "\x7b" => true
  | _ => false

/-- The kind of declaration that starts here. -/
def declarationKind? : Parser (Option VarKind) := do
  match (← get).token.keyword? with
  | some "var" => pure (some .var)
  | some "const" => pure (some .constant)
  | some "let" => do pure (if followsLet (← peek).token then some .lexical else none)
  | _ => pure none

/-- The kind of declaration that starts here as a statement, which is only a lexical one in a
list of statements. -/
def declarationKindIn? (inList : Bool) : Parser (Option VarKind) := do
  match ← declarationKind? with
  | some .var => pure (some .var)
  | kind => pure (if inList then kind else none)

/-- A declaration; constants have a first value. -/
def varRule (kind : VarKind) : Parser Stmt := do
  advance
  let decls ← withIn (declarators g kind)
  let complete := decls.all fun d => isComplete d && (kind != .constant || d.init.isSome)
  unless complete do expected "="
  semicolon
  pure (.varStmt kind decls)

def ifRule : Parser Stmt := do
  advance
  let test ← headExpression g
  let cons ← g.statement
  let alt ← if ← eatWord "else" then some <$> g.statement else pure none
  pure (.ifStmt test cons alt)

def loopBody : Parser Stmt := withReader loopContext g.statement

def whileRule : Parser Stmt := do
  advance
  let test ← headExpression g
  pure (.whileStmt test (← loopBody g))

/-- A `do` loop; the semicolon behind it is optional everywhere. -/
def doWhileRule : Parser Stmt := do
  advance
  let body ← loopBody g
  expectWord "while"
  let test ← headExpression g
  let _ ← eatPunct ";"
  pure (.doWhileStmt body test)

/-- The rest of a `for` loop, from behind its first semicolon. The second one ends a missing
condition, and is optional behind one. -/
def forFrom (init : ForInit) : Parser Stmt := do
  let test ←
    if ← eatPunct ";" then pure none
    else
      let e ← withIn g.expression
      let _ ← eatPunct ";"
      pure (some e)
  let update ← if ← atPunct ")" then pure none else some <$> withIn g.expression
  expectPunct ")"
  pure (.forStmt init test update (← loopBody g))

/-- The rest of a `for`-`of` loop, from its word on. -/
def forOfFrom (start : Nat) : Parser Stmt := do
  expectWord "of"
  let _ ← withIn g.assignment
  expectPunct ")"
  let _ ← loopBody g
  pure (.foreign .forOf (← extentFrom start))

/-- The rest of a `for`-`in` loop, from its word on. -/
def forInFrom (start : Nat) (head : ForInHead) : Parser Stmt := do
  expectWord "in"
  let object ← withIn g.expression
  expectPunct ")"
  let body ← loopBody g
  pure (.forInStmt head object body (← extentFrom start))

/-- Read the head of a loop, in which `in` is no operator. -/
def withoutIn {α : Type} (p : Parser α) : Parser α :=
  withReader (fun context => { context with allowIn := false }) p

/-- A loop whose head starts with a declaration. In its first values `in` is an operator where
it is one around the loop, and always in lexical declarations. -/
def forDeclaration (start : Nat) (kind : VarKind) : Parser Stmt := do
  advance
  let decls ← if kind == .var then declarators g kind else withIn (declarators g kind)
  match decls, ← atWord "of", ← atWord "in" with
  | [_], true, _ => forOfFrom g start
  | [d], _, true => forInFrom g start (.var kind (some d.pattern))
  | _, _, _ => do
    unless decls.all isComplete do expected "="
    expectPunct ";"
    forFrom g (.vars kind decls)

/-- What a loop over keys writes to, from what was read as an expression. -/
def forTarget (e : Expr) (extent : Extent) : Parser ForInHead := do
  if e.isPlace then pure (.target e)
  else
    match e.patternKind? with
    | some kind => pure (.pattern kind extent)
    | none => fault .badTarget

/-- A loop whose head starts with an expression. -/
def forExpression (start : Nat) : Parser Stmt := do
  let first ← here
  let e ← withoutIn g.expression
  let extent ← extentFrom first
  if ← atWord "of" then
    let _ ← forTarget e extent
    forOfFrom g start
  else if ← atWord "in" then
    let head ← forTarget e extent
    forInFrom g start head
  else
    expectPunct ";"
    forFrom g (.expr e)

def forLoop (start : Nat) : Parser Stmt := do
  match ← declarationKind? with
  | some kind => forDeclaration g start kind
  | none => if ← eatPunct ";" then forFrom g .none else forExpression g start

/-- A `for` loop of any kind; only one over values can wait for them. -/
def forRule : Parser Stmt := do
  let start ← here
  advance
  let waits ← eatWord "await"
  expectPunct "("
  match ← forLoop g start, waits with
  | .foreign kind extent, _ => pure (.foreign kind extent)
  | _, true => expected "of"
  | loop, false => pure loop

/-- The label of a jump, on the line of the jump. -/
def jumpLabel : Parser (Option String) := do
  if ← atStatementEnd then pure none else some <$> bindingName

def breakRule : Parser Stmt := do
  let start ← here
  advance
  let label ← jumpLabel
  semicolon
  let context ← read
  match label with
  | none => unless context.canBreak do misplace .breakOutside start
  | some name => unless context.labels.contains name do misplace .breakLabel start
  pure (.breakStmt label (← extentFrom start))

def continueRule : Parser Stmt := do
  let start ← here
  advance
  let label ← jumpLabel
  semicolon
  let context ← read
  if !context.canContinue then misplace .continueOutside start
  else if label.any fun name => !context.labels.contains name then misplace .continueLabel start
  pure (.continueStmt label (← extentFrom start))

def returnRule : Parser Stmt := do
  let start ← here
  advance
  let arg ← if ← atStatementEnd then pure none else some <$> withIn g.expression
  semicolon
  unless (← read).inFunction do misplace .returnOutside start
  pure (.returnStmt arg)

def throwRule : Parser Stmt := do
  advance
  if (← get).newline then fault .lineBreakAfterThrow
  let arg ← withIn g.expression
  semicolon
  pure (.throwStmt arg)

def withRule : Parser Stmt := do
  let start ← here
  advance
  let object ← headExpression g
  let body ← withReader withContext g.statement
  pure (.withStmt object body (← extentFrom start))

/-- Whether the statements of a `switch` case end here. -/
def atCaseEnd : Parser Bool := do
  pure ((← atPunct "\x7d") || (← atWord "case") || (← atWord "default"))

def caseRule : Parser Case := do
  let test ←
    if ← eatWord "default" then pure none
    else
      expectWord "case"
      some <$> withIn g.expression
  expectPunct ":"
  pure ⟨test, ← statementsUntil g atCaseEnd⟩

/-- A `switch` statement; at most one case has no test. -/
def switchRule : Parser Stmt := do
  advance
  let discriminant ← headExpression g
  expectPunct "\x7b"
  let cases ← withReader switchContext (iterate (fun cases => do
    if ← eatPunct "\x7d" then pure (.inr cases.reverse)
    else pure (.inl ((← caseRule g) :: cases))) ([] : List Case))
  if 1 < (cases.filter fun c => c.test.isNone).length then expected "case"
  pure (.switchStmt discriminant cases)

def catchRule : Parser Catch := do
  let param ←
    if ← eatPunct "(" then
      let pattern ← g.binding
      expectPunct ")"
      pure (some pattern)
    else pure none
  pure ⟨param, ← g.block⟩

def tryRule : Parser Stmt := do
  let start ← here
  advance
  let block ← g.block
  let handler ← if ← eatWord "catch" then some <$> catchRule g else pure none
  let finalizer ← if ← eatWord "finally" then some <$> g.block else pure none
  if handler.isNone && finalizer.isNone then expected "catch"
  else pure (.tryStmt block handler finalizer (← extentFrom start))

def classDeclaration : Parser Stmt := do
  let start ← here
  withStrict do
    advance
    if ← atWord "let" then fault (.reservedName "let")
    let _ ← bindingName
    classTail g
  pure (.foreign .classDecl (← extentFrom start))

/-- An expression as a statement, or a labeled statement. -/
def expressionStatement : Parser Stmt := do
  let e ← withIn g.expression
  match e, ← atPunct ":" with
  | .ident label, true => do
    advance
    pure (.labeled label (← withReader (labelContext label) g.statement))
  | e, _ => do
    semicolon
    pure (.exprStmt e)

/-- An import as a statement, which need not end with its line. -/
def importStatement : Parser Stmt := do
  let e ← g.expression
  let _ ← eatPunct ";"
  pure (.exprStmt e)

/-- A statement that starts with a keyword. -/
def wordStatement (word : String) : Parser Stmt := do
  match word with
  | "if" => ifRule g
  | "while" => whileRule g
  | "do" => doWhileRule g
  | "for" => forRule g
  | "break" => breakRule
  | "continue" => continueRule
  | "return" => returnRule g
  | "throw" => throwRule g
  | "with" => withRule g
  | "switch" => switchRule g
  | "try" => tryRule g
  | "class" => classDeclaration g
  | "import" => importStatement g
  | "function" => do functionDeclaration g (← here) false
  | "debugger" => do
    advance
    semicolon
    pure .empty
  | "async" => do
    let start ← here
    let next ← peek
    if next.token.keyword? == some "function" && !next.newline then
      advance
      functionDeclaration g start true
    else expressionStatement g
  | _ => expressionStatement g

/-- A statement, or a declaration where the statement is one of a list. -/
def statementRule (inList : Bool) : Parser Stmt := do
  match ← declarationKindIn? inList with
  | some kind => varRule g kind
  | none =>
    let c ← get
    match c.token, c.token.keyword? with
    | .punct ";", _ => do
      advance
      pure .empty
    | .punct "\x7b", _ => do pure (.block (← g.block))
    | _, some word => wordStatement g word
    | _, none => expressionStatement g

end EcmaLua.Surface.Reader
