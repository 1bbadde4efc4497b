import EcmaLua.Surface.Reader.Numeral
import EcmaLua.Surface.Reader.Word

/-!
# Tokens

Scanning takes the text at a place to the next token, the blanks and comments before it left
out. A slash always scans as an operator; where an operand is wanted, the grammar scans it again
as a regular expression.
-/

namespace EcmaLua.Surface.Reader

/-- What a script is made of. -/
inductive Token where
  | word (letters : String) (spelling : Spelling)
  | punct (text : String)
  | number (value : Double)
  | bigint (value : Nat)
  | string (points : List Nat)
  /-- the start of a template -/
  | backquote
  | stop
deriving DecidableEq, Repr

namespace Token

/-- The word as a keyword; a word with an escape at its start is none. -/
def keyword? : Token → Option String
  | .word _ .escaped => none
  | .word letters _ => some letters
  | _ => none

/-- The word as a name. -/
def name? : Token → Option String
  | .word _ (.verbatim text) => some text
  | .word letters _ => some letters
  | _ => none

def isWord (token : Token) : Bool := token.name?.isSome

end Token

/-- The rest of a string, whose code points so far are in reverse order. -/
def stringTail (limit : Nat) (quote : Char) (points : List Nat) (place : Place) :
    Scan (Token × Place) :=
  match limit with
  | 0 => throw ⟨.tooDeep, place.offset⟩
  | limit + 1 =>
    match place.rest with
    | [] => throw ⟨.unterminatedString, place.offset⟩
    | '\\' :: rest => do
      let (escaped, after) ← stringEscape ⟨place.offset + 1, rest⟩
      stringTail limit quote (escaped ++ points) after
    | c :: rest =>
      let after : Place := ⟨place.offset + c.utf8Size, rest⟩
      if c = quote then pure (.string points.reverse, after)
      else if c = '\n' ∨ c = '\r' then throw ⟨.unterminatedString, place.offset⟩
      else stringTail limit quote (c.toNat :: points) after

/-- The operators and brackets, each before its own beginnings. The mark of an optional chain is
a question mark and a point, which blanks can part. -/
def puncts : List String :=
  [">>>=", "...", "===", "!==", "**=", "<<=", ">>=", ">>>", "&&=", "||=", "??=", "=>", "==", "!=",
    "<=", ">=", "&&", "||", "??", "++", "--", "+=", "-=", "*=", "/=", "%=", "&=", "|=", "^=",
    "<<", ">>", "**", "\x7b", "\x7d", "(", ")", "[", "]", ";", ",", "<", ">", "+", "-", "*", "/",
    "%", "&", "|", "^", "!", "~", "?", ":", "=", ".", "#"]

/-- What follows a given beginning. -/
def afterPrefix? : List Char → List Char → Option (List Char)
  | [], rest => some rest
  | _ :: _, [] => none
  | c :: cs, d :: ds => if c = d then afterPrefix? cs ds else none

/-- Whether a text starts with a digit. -/
def startsWithDigit : List Char → Bool
  | c :: _ => c.isDigit
  | [] => false

/-- The operator or bracket at a place. -/
def scanPunct (place : Place) : Scan (Token × Place) :=
  let found := puncts.findSome? fun text =>
    (afterPrefix? text.toList place.rest).map fun rest =>
      (text, (⟨place.offset + text.length, rest⟩ : Place))
  match found with
  | some (text, after) => pure (.punct text, after)
  | none => throw ⟨.unexpectedCharacter, place.offset⟩

/-- The token of a numeral. -/
def Numeral.token : Numeral → Token
  | .number value => .number value
  | .bigint value => .bigint value

/-- The token at a place without blanks before it; `limit` bounds the length of the text. -/
def scanToken (limit : Nat) (place : Place) : Scan (Token × Place) :=
  match place.rest with
  | [] => pure (.stop, place)
  | c :: rest =>
    let next : Place := ⟨place.offset + c.utf8Size, rest⟩
    if c = '"' ∨ c = '\'' then stringTail limit c [] next
    else if c.isDigit ∨ (c = '.' ∧ startsWithDigit rest) then do
      let (numeral, after) ← scanNumeral place
      pure (numeral.token, after)
    else if startsWord place.rest then do
      let (letters, spelling, after) ← scanWord limit place
      pure (.word letters spelling, after)
    else if c.toNat = 0x60 then pure (.backquote, next)
    else scanPunct place

/-- The body of a regular expression from behind its first slash, and what follows the last
one. -/
def regexBody (inClass : Bool) (offset : Nat) (body : List Char) : List Char → Scan (String × Place)
  | [] => throw ⟨.unterminatedRegex, offset⟩
  | '\\' :: c :: rest =>
    if isLineEnd c then throw ⟨.unterminatedRegex, offset⟩
    else regexBody inClass (offset + 1 + c.utf8Size) (c :: '\\' :: body) rest
  | c :: rest =>
    if isLineEnd c then throw ⟨.unterminatedRegex, offset⟩
    else if c = '/' ∧ inClass = false then pure (String.ofList body.reverse, ⟨offset + 1, rest⟩)
    else
      let inClass' := c = '[' || (inClass && c != ']')
      regexBody inClass' (offset + c.utf8Size) (c :: body) rest

/-- The flags at a place; they start with a letter that is not escaped. -/
def regexFlags (limit : Nat) (place : Place) : Scan (String × Place) :=
  match place.rest with
  | c :: _ =>
    if Text.isIdentifierStart c then do
      let (flags, _, after) ← wordTail limit false [] place
      pure (flags, after)
    else pure ("", place)
  | [] => pure ("", place)

/-- A regular expression from behind its first slash: the pattern, the flags, what follows. -/
def scanRegex (limit : Nat) (place : Place) : Scan (String × String × Place) := do
  let (pattern, after) ← regexBody false place.offset [] place.rest
  let (flags, rest) ← regexFlags limit after
  pure (pattern, flags, rest)

/-- What ends a piece of a template. -/
inductive TemplateEnd where
  | quote
  /-- an expression in the template -/
  | expression
deriving DecidableEq, Repr

/-- The text of a template up to what ends it; `meaningful` while all of its escapes have a
meaning. -/
def templateText (meaningful : Bool) (offset : Nat) :
    List Char → Scan (TemplateEnd × Bool × Place)
  | [] => throw ⟨.unterminatedTemplate, offset⟩
  | '\\' :: c :: rest =>
    templateText (meaningful && isTemplateEscape ⟨offset + 1, c :: rest⟩)
      (offset + 1 + c.utf8Size) rest
  | '$' :: '\x7b' :: rest => pure (.expression, meaningful, ⟨offset + 2, rest⟩)
  | c :: rest =>
    if c.toNat = 0x60 then pure (.quote, meaningful, ⟨offset + 1, rest⟩)
    else templateText meaningful (offset + c.utf8Size) rest

end EcmaLua.Surface.Reader
