/-!
# Slash-separated paths

Two paths are the same when their components are: repeated and trailing slashes and inner dots
do not count, while a leading dot is a component of its own.
-/

namespace EcmaLua.Path

/-- One component of a path. -/
inductive Component where
  | root
  | current
  | parent
  | normal (name : String)
deriving DecidableEq, Repr

namespace Component

/-- Roots come first, then dots, then names. -/
def rank : Component → Nat
  | .root => 0
  | .current => 1
  | .parent => 2
  | .normal _ => 3

def lt : Component → Component → Bool
  | .normal a, .normal b => a < b
  | a, b => a.rank < b.rank

end Component

/-- Cut a text at every slash. -/
def segments : List Char → List (List Char)
  | [] => [[]]
  | c :: cs =>
    match segments cs with
    | [] => [[c]]
    | s :: rest => if c = '/' then [] :: s :: rest else (c :: s) :: rest

/-- The component of a segment that is not the first one. -/
def component? (segment : String) : Option Component :=
  if segment = "" ∨ segment = "." then none
  else if segment = ".." then some .parent
  else some (.normal segment)

/-- The components of a path. -/
def components (path : String) : List Component :=
  match (segments path.toList).map String.ofList with
  | [] => []
  | first :: rest =>
    let head :=
      if first = "" then if rest = [] then [] else [.root]
      else if first = "." then [.current]
      else (component? first).toList
    head ++ rest.filterMap component?

/-- Whether two paths name the same place. -/
def same (a b : String) : Bool := components a == components b

/-- Component-wise order. -/
def compLt : List Component → List Component → Bool
  | _, [] => false
  | [], _ :: _ => true
  | a :: as, b :: bs => if a.lt b then true else if a = b then compLt as bs else false

def lt (a b : String) : Bool := compLt (components a) (components b)

/-- The path of `name` below the directory `dir`. -/
def join (dir name : String) : String :=
  if dir = "" then name
  else if dir.toList.getLast? = some '/' then dir ++ name
  else dir ++ "/" ++ name

/-- A path without trailing slashes and trailing dots; the characters come last first. -/
def trimEnd : List Char → List Char
  | '/' :: c :: cs => trimEnd (c :: cs)
  | '.' :: '/' :: c :: cs => trimEnd (c :: cs)
  | cs => cs

/-- The directory part, with its slash, and the last segment of a path. -/
def splitLast (path : String) : String × String :=
  let reversed := trimEnd path.toList.reverse
  let name := reversed.takeWhile (· ≠ '/')
  let dir := reversed.dropWhile (· ≠ '/')
  (String.ofList dir.reverse, String.ofList name.reverse)

/-- The last component, when it is a name. -/
def fileName? (path : String) : Option String :=
  match (components path).getLast? with
  | some (.normal name) => some name
  | _ => none

/-- A name cut at its last dot; a leading dot belongs to the stem. -/
def splitExtension (name : String) : String × Option String :=
  let reversed := name.toList.reverse
  let extension := reversed.takeWhile (· ≠ '.')
  match reversed.dropWhile (· ≠ '.') with
  | _ :: c :: cs => (String.ofList (c :: cs).reverse, some (String.ofList extension.reverse))
  | _ => (name, none)

/-- The extension of the last component. -/
def extension? (path : String) : Option String :=
  (fileName? path).bind fun name => (splitExtension name).2

/-- The path with its last component's extension replaced. -/
def withExtension (path extension : String) : String :=
  match fileName? path with
  | none => path
  | some _ =>
    let (dir, name) := splitLast path
    dir ++ (splitExtension name).1 ++ "." ++ extension

end EcmaLua.Path
