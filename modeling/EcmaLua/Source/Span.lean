/-!
# Places in source texts

A span is a half-open range of byte offsets in one file. A parser numbers the positions of its
input from a base of its own; a `Numbering` takes such an extent to a span.
-/

namespace EcmaLua

/-- A file's number in the source library. -/
structure FileId where
  val : Nat
deriving DecidableEq, Repr

/-- The number that no file has. -/
def FileId.none : FileId := ⟨4294967295⟩

/-- The bytes from `start` up to, not including, `stop`. -/
structure Span where
  file : FileId
  start : Nat
  stop : Nat
deriving DecidableEq, Repr

namespace Span

/-- The span of what has no place in any file. -/
def nowhere : Span := ⟨.none, 0, 0⟩

/-- Whether the span belongs to no file. -/
def isNowhere (s : Span) : Bool := s.file == .none

/-- Length in bytes, zero for an inverted range. -/
def length (s : Span) : Nat := s.stop - s.start

def isEmpty (s : Span) : Bool := s.stop ≤ s.start

end Span

/-- A range of positions in a parser's own numbering; position zero is no place. -/
structure Extent where
  lo : Nat
  hi : Nat
deriving DecidableEq, Repr

/-- The extent between two positions, whichever comes first. -/
def Extent.between (a b : Nat) : Extent := ⟨min a b, max a b⟩

/-- A numbering of one file's positions in which its first byte has number `base`. -/
structure Numbering where
  file : FileId
  base : Nat
deriving DecidableEq, Repr

/-- The numbering of a text that is in no file. -/
def Numbering.nowhere : Numbering := ⟨.none, 0⟩

/-- The span of an extent; positions before the base count as the file's first byte. -/
def Numbering.span (n : Numbering) (e : Extent) : Span :=
  if n.file = .none ∨ e.lo = 0 then .nowhere else ⟨n.file, e.lo - n.base, e.hi - n.base⟩

end EcmaLua
