import EcmaLua.CommandLine.Run

/-!
# The program

The command line over the real file system.
-/

namespace EcmaLua.CommandLine

/-- The fault of a failed operation of the real file system. -/
def FileFault.ofError : IO.Error → FileFault
  | .noFileOrDirectory .. => .missing
  | .noSuchThing .. => .missing
  | .alreadyExists .. => .exists
  | .inappropriateType _ code _ => if code = 21 then .isDirectory else .notDirectory
  | e => .other (toString e)

/-- Run an operation of the real file system. -/
def attemptIn {α : Type} (action : IO α) : IO (Except FileFault α) := do
  try return .ok (← action)
  catch e => return .error (FileFault.ofError e)

/-- Whether an operation of the real file system works and gives true. -/
def succeeds (action : IO Bool) : IO Bool := do
  try action
  catch _ => return false

/-- Whether there is a directory at a path. -/
def isRealDirectory (path : String) : IO Bool :=
  succeeds do (← IO.FS.realPath path).isDir

/-- The paths of the files below a directory, up to a depth. -/
def realFilesBelow (path : String) : Nat → IO (List String)
  | 0 => return []
  | depth + 1 => do
    let entries ← (← IO.FS.realPath path).readDir
    let below ← entries.toList.mapM fun entry => do
      let name := Path.join path entry.fileName
      if ← isRealDirectory name then realFilesBelow name depth else return [name]
    return below.flatten

/-- Whether there is something other than a directory at a path. -/
def isRealFile (path : String) : IO Bool :=
  succeeds do
    if ← isRealDirectory path then return false
    (← IO.FS.realPath path).pathExists

/-- Make a directory and those above it. A file at the path is in the way; one on the way is no
directory. -/
def createRealDirectory (path : String) : IO (Except FileFault Unit) := do
  match ← attemptIn (IO.FS.createDirAll path) with
  | .error .exists => return .error (if ← isRealFile path then .exists else .notDirectory)
  | result => return result

/-- The real file system. -/
def realSystem : FileSystem IO where
  readText path := attemptIn do
    if ← isRealDirectory path then throw (.inappropriateType none 21 "Is a directory")
    IO.FS.readFile path
  writeText path text := attemptIn (IO.FS.writeFile path text)
  createDirectory := createRealDirectory
  isFile := isRealFile
  isDirectory := isRealDirectory
  absolutePath path := do
    try return (← IO.FS.realPath path).toString
    catch _ => return path
  filesBelow path := do
    try realFilesBelow path 256
    catch _ => return []

end EcmaLua.CommandLine

/-- Run the program and give its status. -/
def main (arguments : List String) : IO UInt32 := do
  let outcome ← EcmaLua.CommandLine.run EcmaLua.CommandLine.realSystem arguments
  IO.print outcome.stdout
  IO.eprint outcome.stderr
  return outcome.status.toUInt32
