import EcmaLua.Surface.Reader.Place

/-!
# Escapes

What stands behind a backslash in a word, a string or a template.
-/

namespace EcmaLua.Surface.Reader

/-- The code point in braces, from behind the opening one. -/
def bracedPoint? (place : Place) : Option (Nat × Place) :=
  let (digits, after) := digitRun 16 place.offset [] place.rest
  let value := Text.ofDigits 16 digits
  match after.rest with
  | '\x7d' :: rest =>
    if digits.isEmpty || 0x10FFFF < value then none else some (value, ⟨after.offset + 1, rest⟩)
  | _ => none

/-- The code point of four digits. -/
def fourDigitPoint? (place : Place) : Option (Nat × Place) :=
  (digitsExactly? 16 4 place).map fun (digits, after) => (Text.ofDigits 16 digits, after)

def isHighSurrogate (n : Nat) : Bool := 0xD800 ≤ n && n ≤ 0xDBFF

/-- Whether the text can follow the first half of a pair: an escape behind it is tried as the
second half, and so has four digits. -/
def continuesPair : Place → Bool
  | ⟨offset, '\\' :: 'u' :: rest⟩ => (fourDigitPoint? ⟨offset + 2, rest⟩).isSome
  | _ => true

/-- The code point of an escape, from behind its `u`. -/
def unicodeEscape (place : Place) : Scan (Nat × Place) :=
  let found :=
    match place.rest with
    | '\x7b' :: rest => bracedPoint? ⟨place.offset + 1, rest⟩
    | _ => fourDigitPoint? place
  match found with
  | some (n, after) =>
    if isHighSurrogate n && !continuesPair after then throw ⟨.badEscape, after.offset⟩
    else pure (n, after)
  | none => throw ⟨.badEscape, place.offset⟩

/-- The characters that stand for others after a backslash. -/
def simpleEscape? (c : Char) : Option Nat :=
  match c with
  | 'n' => some 10
  | 't' => some 9
  | 'b' => some 8
  | 'v' => some 11
  | 'f' => some 12
  | 'r' => some 13
  | _ => none

/-- The further octal digits of an escape, given its first: all values fit a byte. -/
def octalDigits (first : Char) (rest : List Char) : List Char :=
  let more := if first ≤ '3' then 2 else 1
  (rest.take more).takeWhile (isDigitIn 8)

/-- An escape in a string, from behind the backslash: its code points, none for a line end. -/
def stringEscape (place : Place) : Scan (List Nat × Place) :=
  let offset := place.offset
  match place.rest with
  | [] => throw ⟨.unterminatedString, offset⟩
  | '\r' :: '\n' :: rest => pure ([], ⟨offset + 2, rest⟩)
  | 'u' :: rest => do
    let (n, after) ← unicodeEscape ⟨offset + 1, rest⟩
    pure ([n], after)
  | 'x' :: rest =>
    match digitsExactly? 16 2 ⟨offset + 1, rest⟩ with
    | some (digits, after) => pure ([Text.ofDigits 16 digits], after)
    | none => throw ⟨.badEscape, offset⟩
  | c :: rest =>
    if isLineEnd c then pure ([], ⟨offset + c.utf8Size, rest⟩)
    else
      match simpleEscape? c with
      | some n => pure ([n], ⟨offset + 1, rest⟩)
      | none =>
        if isDigitIn 8 c then
          let more := octalDigits c rest
          pure ([Text.ofDigits 8 (c :: more)],
            ⟨offset + 1 + more.length, rest.drop more.length⟩)
        else pure ([c.toNat], ⟨offset + c.utf8Size, rest⟩)

/-- Whether the escape behind a backslash is octal, which a template does not allow. A lone zero
is none. -/
def isOctalEscape : List Char → Bool
  | '0' :: c :: _ => isDigitIn 8 c
  | '0' :: [] => false
  | c :: _ => isDigitIn 8 c
  | [] => false

/-- Whether the escape behind a backslash has a meaning in a template. -/
def isTemplateEscape (place : Place) : Bool :=
  !isOctalEscape place.rest && (stringEscape place).isOk

end EcmaLua.Surface.Reader
