import EcmaLua.Source.Path

/-!
# File systems

What commands ask of a file system, and how it can refuse. Commands see files only through these
questions, so a run can be studied over a file tree in memory.
-/

namespace EcmaLua.CommandLine

/-- Why a file system refuses. -/
inductive FileFault where
  | missing
  | exists
  | notDirectory
  | isDirectory
  /-- any other reason, in the system's words -/
  | other (text : String)
deriving DecidableEq, Repr

def FileFault.message : FileFault → String
  | .missing => "No such file or directory (os error 2)"
  | .exists => "File exists (os error 17)"
  | .notDirectory => "Not a directory (os error 20)"
  | .isDirectory => "Is a directory (os error 21)"
  | .other text => text

/-- The questions, each with a path. -/
structure FileSystem (m : Type → Type) where
  readText : String → m (Except FileFault String)
  writeText : String → String → m (Except FileFault Unit)
  /-- make a directory and those above it -/
  createDirectory : String → m (Except FileFault Unit)
  isFile : String → m Bool
  isDirectory : String → m Bool
  /-- the one absolute path of a place -/
  absolutePath : String → m String
  /-- the paths of all files in and below a directory -/
  filesBelow : String → m (List String)

end EcmaLua.CommandLine
