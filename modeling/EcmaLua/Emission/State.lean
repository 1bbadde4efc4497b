import EcmaLua.Diagnostic.Finding
import EcmaLua.Emission.Control
import EcmaLua.Emission.Scope
import EcmaLua.Lua.Chunk
import EcmaLua.Program.Declarations

/-!
# The state of an emission

What is known at a place of the program while its Lua code is made: the numbers used, the open
frames, the jump targets, the names that each open `with` may capture, and the findings so far.
Every action that opens a frame or an enclosure closes it again.
-/

namespace EcmaLua.Emission

structure State where
  supply : Supply := {}
  scope : Scope := []
  control : Control := []
  /-- for each open `with`, innermost first, the names looked up inside it -/
  captured : List (List String) := []
  findings : List Finding := []
  /-- a frame was closed while none was open -/
  underflow : Bool := false

/-- An action that makes Lua code. -/
abbrev Emit := StateM State

/-- A name that no other generated code has. -/
def fresh (stem : String) : Emit String := do
  let s ← get
  let (name, supply) := s.supply.fresh stem
  set { s with supply }
  pure name

def report (finding : Finding) : Emit Unit :=
  modify fun s => { s with findings := s.findings ++ [finding] }

/-- Look an identifier up; one that a `with` object may hold is noted there. -/
def lookup (name : String) : Emit Resolution := do
  let s ← get
  let resolution := s.scope.resolve name
  match resolution with
  | .dynamic _ =>
    match s.captured with
    | [] => pure ()
    | names :: rest => set { s with captured := (name :: names) :: rest }
  | _ => pure ()
  pure resolution

/-- Close the innermost frame. -/
def closeFrame : Emit Unit :=
  modify fun s => { s with scope := s.scope.tail, underflow := s.underflow || s.scope.isEmpty }

/-- Act within a frame. -/
def inFrame {α : Type} (frame : Frame) (act : Emit α) : Emit α := do
  modify fun s => { s with scope := frame :: s.scope }
  let a ← act
  closeFrame
  pure a

/-- Act within an enclosure, and tell what became of it. -/
def enclosed {α : Type} (enclosure : Enclosure) (act : Emit α) : Emit (α × Enclosure) := do
  modify fun s => { s with control := enclosure :: s.control }
  let a ← act
  let s ← get
  set { s with control := s.control.tail }
  pure (a, s.control.headD enclosure)

/-- Act within a Lua function that no jump can leave. -/
def walled {α : Type} (act : Emit α) : Emit α := do
  let (a, _) ← enclosed .barrier act
  pure a

/-- Act within labeled statements, outermost first. -/
def labeled {α : Type} (labels : List String) (act : Emit α) : Emit α :=
  match labels with
  | [] => act
  | label :: rest => do
    let (a, _) ← enclosed (.labeled label) (labeled rest act)
    pure a

/-- Act where no enclosing construct can be addressed. -/
def detached {α : Type} (act : Emit α) : Emit α := do
  let outer := (← get).control
  modify fun s => { s with control := [] }
  let a ← act
  modify fun s => { s with control := outer }
  pure a

/-- Act in the body of a `with`, and tell the names that its object may hold. -/
def capturing {α : Type} (act : Emit α) : Emit (α × List String) := do
  modify fun s => { s with captured := [] :: s.captured }
  let a ← act
  let s ← get
  set { s with captured := s.captured.tail }
  pure (a, nameSet (s.captured.headD []))

/-- Note that names have locals; those that had none before, in order. -/
def declareNew : List String → Emit (List String)
  | [] => pure []
  | name :: rest => do
    let s ← get
    let (new, scope) := s.scope.declare name
    set { s with scope }
    let others ← declareNew rest
    pure (if new then name :: others else others)

/-- The declaration of the names that have no local yet. -/
def declareLocals (names : List String) : Emit (List Lua.Stat) := do
  let new ← declareNew names
  pure (if new.isEmpty then [] else [.declare (new.map Lua.spell)])

/-- The spelling of a `break`. -/
def breakJump (label : Option String) : Emit Jump := do
  pure ((← get).control.breakJump label)

/-- The spelling of a `continue`. -/
def continueJump (label : Option String) : Emit Jump := do
  let s ← get
  let (jump, control, supply) := s.control.continueJump label s.supply
  set { s with control, supply }
  pure jump

end EcmaLua.Emission
