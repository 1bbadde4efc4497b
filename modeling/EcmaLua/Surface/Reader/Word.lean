import EcmaLua.Surface.Reader.Escape
import EcmaLua.Text.Identifier

/-!
# Words

A word is a name or a keyword. Escapes can stand for its letters, but a reserved word is written
without them. A word that starts with an escape is always a name. A contextual keyword with an
escape farther behind is still that keyword, and where it is used as a name, its name is the text
as it stands.
-/

namespace EcmaLua.Surface.Reader

/-- How a word is written. -/
inductive Spelling where
  | plain
  /-- with an escape, and no keyword -/
  | escaped
  /-- with an escape, and a contextual keyword all the same, which is spelled like this -/
  | verbatim (text : String)
deriving DecidableEq, Repr

/-- The words that are never names. -/
def reservedWords : List String :=
  ["break", "case", "catch", "class", "const", "continue", "debugger", "default", "delete", "do",
    "else", "enum", "export", "extends", "false", "finally", "for", "function", "if", "import",
    "in", "instanceof", "new", "null", "return", "super", "switch", "this", "throw", "true", "try",
    "typeof", "var", "void", "while", "with"]

/-- The further words that strict code does not read. -/
def strictWords : List String :=
  ["implements", "interface", "package", "private", "protected", "public"]

/-- The words that are keywords in some places, those of type annotations among them. -/
def contextualWords : List String :=
  ["abstract", "accessor", "any", "as", "assert", "asserts", "async", "await", "bigint", "boolean",
    "declare", "from", "get", "global", "implements", "infer", "interface", "intrinsic", "is",
    "keyof", "let", "meta", "namespace", "never", "number", "object", "of", "package", "private",
    "protected", "public", "readonly", "require", "satisfies", "set", "static", "string", "symbol",
    "target", "type", "undefined", "unique", "unknown", "using", "yield"]

/-- The letters from a place on, in reverse order behind those before it, and whether one of them
is escaped. -/
def wordTail (limit : Nat) (escaped : Bool) (letters : List Char) (place : Place) :
    Scan (String × Bool × Place) :=
  match limit with
  | 0 => throw ⟨.tooDeep, place.offset⟩
  | limit + 1 =>
    match place.rest with
    | '\\' :: 'u' :: rest => do
      let (n, after) ← unicodeEscape ⟨place.offset + 2, rest⟩
      let c := Char.ofNat n
      if Text.isIdentifierPart c then wordTail limit true (c :: letters) after
      else throw ⟨.badEscape, place.offset⟩
    | c :: rest =>
      if Text.isIdentifierPart c then
        wordTail limit escaped (c :: letters) ⟨place.offset + c.utf8Size, rest⟩
      else pure (String.ofList letters.reverse, escaped, place)
    | [] => pure (String.ofList letters.reverse, escaped, place)

/-- The spelling of a word with an escape in it, from the text as it stands; none if the word is
reserved. -/
def escapedSpelling? (letters : String) (text : List Char) : Option Spelling :=
  if text.head? == some '\\' then some .escaped
  else if reservedWords.contains letters then none
  else if contextualWords.contains letters then some (.verbatim (String.ofList text))
  else some .escaped

/-- Whether a word can start at a place. -/
def startsWord : List Char → Bool
  | c :: _ => Text.isIdentifierStart c || c == '\\'
  | [] => false

/-- The word at a place: its letters, its spelling, and what follows. -/
def scanWord (limit : Nat) (place : Place) : Scan (String × Spelling × Place) :=
  if startsWord place.rest then do
    let (letters, escaped, after) ← wordTail limit false [] place
    if letters.isEmpty then throw ⟨.unexpectedCharacter, place.offset⟩
    else if escaped then
      let text := place.rest.take (place.rest.length - after.rest.length)
      match escapedSpelling? letters text with
      | some spelling => pure (letters, spelling, after)
      | none => throw ⟨.reservedName letters, place.offset⟩
    else pure (letters, .plain, after)
  else throw ⟨.unexpectedCharacter, place.offset⟩

end EcmaLua.Surface.Reader
