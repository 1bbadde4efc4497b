/-!
# Scopes

The frames around a place in the program, innermost first. A lexical frame holds the names that
a function body or the program root binds; an object frame stands for the names that a table
holds. The outermost frame is the global object, so that a name which no frame binds is global.
-/

namespace EcmaLua.Emission

/-- What a bound name is. -/
inductive Role where
  | var
  | function
  | parameter
  | builtin
deriving DecidableEq, Repr

inductive FrameKind where
  | lexical
  /-- names are looked up in the table `proxy` -/
  | object (proxy : String)
deriving DecidableEq, Repr

structure Frame where
  kind : FrameKind
  /-- what opened the frame -/
  label : String
  /-- the first binding of a name counts -/
  bindings : List (String × Role) := []
  /-- the names that have a Lua local in this frame -/
  declared : List String := []
deriving DecidableEq, Repr

namespace Frame

/-- A frame that binds variables, functions and parameters; a name in several of the lists is
what the last of them says. -/
def lexical (label : String) (vars funcs params : List String) : Frame where
  kind := .lexical
  label := label
  bindings :=
    params.map (·, .parameter) ++ funcs.map (·, .function) ++ vars.map (·, .var)

/-- A frame whose names live in a table. -/
def object (label proxy : String) : Frame where
  kind := .object proxy
  label := label

/-- Bind a name, whatever it was before. -/
def define (name : String) (role : Role) (f : Frame) : Frame :=
  { f with bindings := (name, role) :: f.bindings }

def role? (f : Frame) (name : String) : Option Role := f.bindings.lookup name

end Frame

/-- Where an identifier is looked up. -/
inductive Resolution where
  | bound (role : Role)
  /-- a table may or may not hold the name -/
  | dynamic (proxy : String)
  | global
deriving DecidableEq, Repr

/-- The open frames, innermost first. -/
abbrev Scope := List Frame

namespace Scope

/-- Bind a name in the innermost frame. -/
def define (name : String) (role : Role) : Scope → Scope
  | [] => []
  | f :: rest => f.define name role :: rest

/-- Look a name up from the innermost frame outwards. -/
def resolve (name : String) : Scope → Resolution
  | [] => .global
  | f :: rest =>
    match f.kind with
    | .lexical =>
      match f.role? name with
      | some role => .bound role
      | none => resolve name rest
    | .object proxy => if rest.isEmpty then .global else .dynamic proxy

/-- Note that a name has a local in the nearest lexical frame; true when it had none. -/
def declare (name : String) : Scope → Bool × Scope
  | [] => (false, [])
  | f :: rest =>
    match f.kind with
    | .lexical =>
      if f.declared.contains name then (false, f :: rest)
      else (true, { f with declared := name :: f.declared } :: rest)
    | .object _ => let (new, rest') := declare name rest; (new, f :: rest')

end Scope

end EcmaLua.Emission
