import EcmaLua.Source.File
import EcmaLua.Source.Path

/-!
# The library of source files

Files are numbered in the order in which they come. A path that is already there keeps its
number, its spelling and its text.
-/

namespace EcmaLua

/-- The files seen so far. -/
structure Library where
  files : List SourceFile := []
deriving DecidableEq, Repr

namespace Library

def empty : Library := {}

def size (l : Library) : Nat := l.files.length

/-- The number of the file with this path, if there is one. -/
def find? (l : Library) (path : String) : Option FileId :=
  (l.files.findIdx? fun f => Path.same f.path path).map FileId.mk

/-- Add a file unless its path is there, and give its number. -/
def add (l : Library) (path text : String) : FileId × Library :=
  match l.find? path with
  | some id => (id, l)
  | none => (⟨l.size⟩, ⟨l.files ++ [⟨path, text⟩]⟩)

def get? (l : Library) (id : FileId) : Option SourceFile := l.files[id.val]?

/-- The place where a span begins. -/
def location (l : Library) (s : Span) : Option Location :=
  if s.isNowhere then none
  else
    (l.get? s.file).map fun f =>
      let (line, column) := f.lineColumn (UInt32.ofNat s.start)
      ⟨f.path, line, column⟩

/-- The text that a span covers. -/
def snippet (l : Library) (s : Span) : Option String :=
  if s.isNowhere then none else (l.get? s.file).bind fun f => f.slice s.start s.stop

end Library

end EcmaLua
