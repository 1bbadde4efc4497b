import EcmaLua.CommandLine.FileSystem

/-!
# File trees in memory

A tree has a root, which is the working directory, and files and directories below it. A path is
followed one segment at a time, and every segment but the last leads through a directory. Nothing
is outside of the root.
-/

namespace EcmaLua.CommandLine

/-- A place in a tree: the names on the way from the root. -/
abbrev Place := List String

structure FileTree where
  /-- the absolute path of the root -/
  root : String
  files : List (Place × String) := []
  /-- directories, apart from those above a file -/
  directories : List Place := []
deriving DecidableEq, Repr

namespace FileTree

/-- The text of the file at a place. -/
def file? (t : FileTree) (place : Place) : Option String := t.files.lookup place

/-- Whether there is a directory at a place: the root, one that was made, or one above either. -/
def hasDirectory (t : FileTree) (place : Place) : Bool :=
  place.isEmpty || t.directories.any (fun d => place.isPrefixOf d)
    || t.files.any (fun f => place.isPrefixOf f.1 && place != f.1)

/-- Go from a directory along one segment. -/
def follow (t : FileTree) (place : Place) (segment : String) : Except FileFault Place :=
  if (t.file? place).isSome then .error .notDirectory
  else if !t.hasDirectory place then .error .missing
  else if segment = "" ∨ segment = "." then .ok place
  else if segment = ".." then
    if place.isEmpty then .error .missing else .ok place.dropLast
  else .ok (place ++ [segment])

/-- Go along segments. -/
def followAll (t : FileTree) (place : Place) : List String → Except FileFault Place
  | [] => .ok place
  | segment :: rest =>
    match t.follow place segment with
    | .error fault => .error fault
    | .ok next => t.followAll next rest

/-- The segments of a path, unless it is absolute. -/
def relativeSegments? (path : String) : Option (List String) :=
  match path.toList with
  | '/' :: _ => none
  | _ => some ((Path.segments path.toList).map String.ofList)

/-- The place of a path; there may be nothing there. -/
def place (t : FileTree) (path : String) : Except FileFault Place :=
  match relativeSegments? path with
  | none => .error .missing
  | some segments => t.followAll [] segments

def readText (t : FileTree) (path : String) : Except FileFault String :=
  match t.place path with
  | .error fault => .error fault
  | .ok place =>
    match t.file? place with
    | some text => .ok text
    | none => .error (if t.hasDirectory place then .isDirectory else .missing)

/-- The tree with this text in the file at a place. -/
def put (t : FileTree) (place : Place) (text : String) : FileTree :=
  if (t.file? place).isSome then
    { t with files := t.files.map fun f => if f.1 == place then (place, text) else f }
  else { t with files := t.files ++ [(place, text)] }

/-- A path without slashes at its end, and whether there were any. -/
def trimSlashes (path : String) : String × Bool :=
  let trimmed := path.toList.reverse.dropWhile (· == '/')
  (String.ofList trimmed.reverse, path.toList.getLast? == some '/')

/-- Write a file. A path with a slash at its end can only be a directory. -/
def writeText (t : FileTree) (path text : String) : Except FileFault FileTree :=
  let (trimmed, slashed) := trimSlashes path
  match t.place trimmed with
  | .error fault => .error fault
  | .ok place =>
    if slashed || t.hasDirectory place then .error .isDirectory else .ok (t.put place text)

/-- Go along one segment, making a directory where there is nothing. -/
def descend (t : FileTree) (place : Place) (segment : String) :
    Except FileFault (FileTree × Place) :=
  if segment = "" then .ok (t, place)
  else
    match t.follow place segment with
    | .error fault => .error fault
    | .ok next =>
      if (t.file? next).isSome || t.hasDirectory next then .ok (t, next)
      else .ok ({ t with directories := t.directories ++ [next] }, next)

/-- Make the directories along segments. A file at the end is in the way. -/
def descendAll (t : FileTree) (place : Place) : List String → Except FileFault FileTree
  | [] => if (t.file? place).isSome then .error .exists else .ok t
  | segment :: rest =>
    match t.descend place segment with
    | .error fault => .error fault
    | .ok (t', next) => t'.descendAll next rest

def createDirectory (t : FileTree) (path : String) : Except FileFault FileTree :=
  match relativeSegments? path with
  | none => .error .missing
  | some segments => t.descendAll [] segments

def isFile (t : FileTree) (path : String) : Bool :=
  match t.place path with
  | .ok place => (t.file? place).isSome
  | .error _ => false

def isDirectory (t : FileTree) (path : String) : Bool :=
  match t.place path with
  | .ok place => t.hasDirectory place
  | .error _ => false

/-- The absolute path of what is at a path; a path that leads nowhere is kept. -/
def absolutePath (t : FileTree) (path : String) : String :=
  match t.place path with
  | .ok place =>
    if (t.file? place).isSome || t.hasDirectory place then "/".intercalate (t.root :: place)
    else path
  | .error _ => path

/-- The paths of all files below a directory, spelled from its path. -/
def filesBelow (t : FileTree) (path : String) : List String :=
  match t.place path with
  | .ok place =>
    if t.hasDirectory place then
      (t.files.filter fun f => place.isPrefixOf f.1).map fun f =>
        Path.join path ("/".intercalate (f.1.drop place.length))
    else []
  | .error _ => []

/-- The tree of files given by their paths. -/
def ofFiles (root : String) (files : List (String × String)) : FileTree where
  root := root
  files := files.map fun (path, text) => ((Path.segments path.toList).map String.ofList, text)

/-- The files, by their paths, that are not in another tree as they are in this one. -/
def changesSince (t before : FileTree) : List (String × String) :=
  (t.files.filter fun f => before.file? f.1 != some f.2).map fun f => ("/".intercalate f.1, f.2)

/-- Change the tree, unless the change is refused. -/
def attempt (change : FileTree → Except FileFault FileTree) :
    StateM FileTree (Except FileFault Unit) := fun t =>
  match change t with
  | .error fault => (.error fault, t)
  | .ok t' => (.ok (), t')

/-- A tree in memory as a file system. -/
def system : FileSystem (StateM FileTree) where
  readText path := fun t => (t.readText path, t)
  writeText path text := attempt fun t => t.writeText path text
  createDirectory path := attempt fun t => t.createDirectory path
  isFile path := fun t => (t.isFile path, t)
  isDirectory path := fun t => (t.isDirectory path, t)
  absolutePath path := fun t => (t.absolutePath path, t)
  filesBelow path := fun t => (t.filesBelow path, t)

end FileTree

end EcmaLua.CommandLine
