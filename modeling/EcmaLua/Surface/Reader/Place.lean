import EcmaLua.Surface.Reader.Fault
import EcmaLua.Text.Digits

/-!
# Places in a text

A scanner takes a place in a text to a later one. Offsets count the bytes of UTF-8.
-/

namespace EcmaLua.Surface.Reader

/-- A place in the text: the offset, and what follows it. -/
structure Place where
  offset : Nat
  rest : List Char
deriving DecidableEq, Repr

abbrev Scan := Except SyntaxError

def isLineEnd (c : Char) : Bool :=
  c == '\n' || c == '\r' || c.toNat == 0x2028 || c.toNat == 0x2029

/-- White space other than line ends. The byte order mark, the control character for a next line
and the space of zero width count. -/
def isBlank (c : Char) : Bool :=
  c == ' ' || c == '\t' || c.toNat == 0x0B || c.toNat == 0x0C || c.toNat == 0x85
    || c.toNat == 0xA0 || c.toNat == 0xFEFF || c.toNat == 0x1680
    || (0x2000 ≤ c.toNat && c.toNat ≤ 0x200B) || c.toNat == 0x202F || c.toNat == 0x205F
    || c.toNat == 0x3000

/-- What a gap between tokens is in. -/
inductive Gap where
  | blank
  | line
  | block
deriving DecidableEq, Repr

/-- Skip blanks and comments. The flag tells whether a line end was passed, or the text began;
only then does an arrow of two dashes start a comment. -/
def skipGap (offset : Nat) (newline : Bool) : Gap → List Char → Scan (Place × Bool)
  | .blank, '/' :: '/' :: rest => skipGap (offset + 2) newline .line rest
  | .blank, '/' :: '*' :: rest => skipGap (offset + 2) newline .block rest
  | .blank, '<' :: '!' :: '-' :: '-' :: rest => skipGap (offset + 4) newline .line rest
  | .blank, '-' :: '-' :: '>' :: rest =>
    if newline then skipGap (offset + 3) newline .line rest
    else pure (⟨offset, '-' :: '-' :: '>' :: rest⟩, newline)
  | .blank, c :: rest =>
    if isLineEnd c then skipGap (offset + c.utf8Size) true .blank rest
    else if isBlank c then skipGap (offset + c.utf8Size) newline .blank rest
    else pure (⟨offset, c :: rest⟩, newline)
  | .line, c :: rest =>
    if isLineEnd c then skipGap (offset + c.utf8Size) true .blank rest
    else skipGap (offset + c.utf8Size) newline .line rest
  | .block, '*' :: '/' :: rest => skipGap (offset + 2) newline .blank rest
  | .block, c :: rest => skipGap (offset + c.utf8Size) (newline || isLineEnd c) .block rest
  | .block, [] => throw ⟨.unterminatedComment, offset⟩
  | _, [] => pure (⟨offset, []⟩, newline)

def isDigitIn (base : Nat) (c : Char) : Bool := (Text.digitValue? base c).isSome

/-- The digits at the start of a text, and what follows. An underscore in front of a digit is
skipped. -/
def digitRun (base : Nat) (offset : Nat) (digits : List Char) : List Char → List Char × Place
  | '_' :: c :: rest =>
    if isDigitIn base c then digitRun base (offset + 2) (c :: digits) rest
    else (digits.reverse, ⟨offset, '_' :: c :: rest⟩)
  | c :: rest =>
    if isDigitIn base c then digitRun base (offset + 1) (c :: digits) rest
    else (digits.reverse, ⟨offset, c :: rest⟩)
  | [] => (digits.reverse, ⟨offset, []⟩)

/-- That many digits at a place, and what follows. An underscore in front of a digit is
skipped. -/
def digitsExactly? (base : Nat) : Nat → Place → Option (List Char × Place)
  | 0, place => some ([], place)
  | count + 1, place =>
    match place.rest with
    | '_' :: c :: rest =>
      if isDigitIn base c then
        (digitsExactly? base count ⟨place.offset + 2, rest⟩).map fun (cs, after) => (c :: cs, after)
      else none
    | c :: rest =>
      if isDigitIn base c then
        (digitsExactly? base count ⟨place.offset + 1, rest⟩).map fun (cs, after) => (c :: cs, after)
      else none
    | [] => none

/-- A byte order mark at the start of a text is no part of it. -/
def skipMark : List Char → List Char
  | c :: rest => if c.toNat = 0xFEFF then rest else c :: rest
  | [] => []

/-- The line at the start of a script that names its interpreter is no part of it. -/
def skipHashbang (text : List Char) : Place :=
  match text with
  | '#' :: '!' :: rest =>
    let line := rest.takeWhile fun c => !isLineEnd c
    ⟨line.foldl (fun n c => n + c.utf8Size) 2, rest.drop line.length⟩
  | _ => ⟨0, text⟩

end EcmaLua.Surface.Reader
