import EcmaLua.Source.Span

/-!
# Source files and their lines

Lines end at line feeds. Offsets and columns count the bytes of the UTF-8 encoding; lines and
columns are numbered from one. All of them are numbers of 32 bits, and their arithmetic wraps.
-/

namespace EcmaLua

/-- A text kept for showing places in it. -/
structure SourceFile where
  path : String
  text : String
deriving DecidableEq, Repr

namespace SourceFile

/-- The offsets just after each line feed of a text that begins at `offset`. -/
def startsAfter (offset : Nat) : List Char → List Nat
  | [] => []
  | c :: cs =>
    if c = '\n' then (offset + 1) :: startsAfter (offset + 1) cs
    else startsAfter (offset + c.utf8Size) cs

/-- The offset of the first byte of every line. -/
def lineStarts (f : SourceFile) : List UInt32 :=
  0 :: (startsAfter 0 f.text.toList).map UInt32.ofNat

/-- The line and the column of an offset; an offset past the end counts as the end. -/
def lineColumn (f : SourceFile) (offset : UInt32) : UInt32 × UInt32 :=
  let offset := min offset (.ofNat f.text.utf8ByteSize)
  let before := f.lineStarts.takeWhile (· ≤ offset)
  (.ofNat before.length, offset - before.getLastD 0 + 1)

/-- The lines of a text without their line feeds. -/
def splitLines : List Char → List (List Char)
  | [] => [[]]
  | c :: cs =>
    match splitLines cs with
    | [] => [[c]]
    | line :: rest => if c = '\n' then [] :: line :: rest else (c :: line) :: rest

/-- A line without the carriage returns at its end. -/
def dropReturns (line : List Char) : List Char :=
  (line.reverse.dropWhile (· == '\r')).reverse

/-- The text of a line without its terminator. -/
def lineText (f : SourceFile) (number : UInt32) : Option String :=
  if number = 0 then none
  else
    ((splitLines f.text.toList)[(number - 1).toNat]?).map fun line =>
      String.ofList (dropReturns line)

/-- Drop a number of bytes; none when the cut is inside a character or past the end. -/
def dropBytes : Nat → List Char → Option (List Char)
  | 0, cs => some cs
  | _ + 1, [] => none
  | n + 1, c :: cs => if c.utf8Size ≤ n + 1 then dropBytes (n + 1 - c.utf8Size) cs else none

/-- Take a number of bytes; none when the cut is inside a character or past the end. -/
def takeBytes : Nat → List Char → Option (List Char)
  | 0, _ => some []
  | _ + 1, [] => none
  | n + 1, c :: cs =>
    if c.utf8Size ≤ n + 1 then (takeBytes (n + 1 - c.utf8Size) cs).map (c :: ·) else none

/-- The text between two offsets. -/
def slice (f : SourceFile) (start stop : Nat) : Option String :=
  if stop < start then none
  else
    (dropBytes start f.text.toList).bind fun rest =>
      (takeBytes (stop - start) rest).map String.ofList

end SourceFile

/-- A place for people: a file with a line and a column. -/
structure Location where
  file : String
  line : UInt32
  column : UInt32
deriving DecidableEq, Repr

def Location.text (l : Location) : String :=
  l.file ++ ":" ++ toString l.line.toNat ++ ":" ++ toString l.column.toNat

end EcmaLua
