import EcmaLua.Emission.Supply
import EcmaLua.Lua.Name

/-!
# Jump targets

The constructs around a place that `break` and `continue` can address, innermost first, and how
a jump is spelled in Lua. A loop gets a landing label for `continue` when the first bare
`continue` asks for one.
-/

namespace EcmaLua.Emission

inductive Enclosure where
  /-- a loop with its labels, and its landing for a bare `continue` -/
  | loop (labels : List String) (landing : Option String)
  | switch
  /-- a labeled statement that is no loop -/
  | labeled (label : String)
  /-- a Lua function that no jump can leave -/
  | barrier
deriving DecidableEq, Repr

/-- The spelling of a jump. -/
inductive Jump where
  | leave
  | goTo (label : String)
  /-- the target lies outside a barrier -/
  | blocked
  | missing
deriving DecidableEq, Repr

/-- The constructs around a place, innermost first. -/
abbrev Control := List Enclosure

/-- The label behind a labeled statement. -/
def afterLabel (label : String) : String := Lua.spell label ++ "__After"

namespace Control

/-- How to leave the labeled statement, or else the nearest loop or `switch`. -/
def breakJump (label : Option String) : Control → Jump
  | [] => .missing
  | .barrier :: _ => .blocked
  | .loop labels _ :: rest =>
    match label with
    | none => .leave
    | some wanted =>
      if labels.contains wanted then .goTo (afterLabel wanted) else breakJump label rest
  | .switch :: rest =>
    match label with
    | none => .leave
    | some _ => breakJump label rest
  | .labeled name :: rest =>
    if label = some name then .goTo (afterLabel name) else breakJump label rest

/-- How to reach the end of the body of the labeled or nearest loop. -/
def continueJump (label : Option String) (supply : Supply) : Control → Jump × Control × Supply
  | [] => (.missing, [], supply)
  | .barrier :: rest => (.blocked, .barrier :: rest, supply)
  | .loop labels landing :: rest =>
    match label with
    | none =>
      match landing with
      | some name => (.goTo name, .loop labels landing :: rest, supply)
      | none =>
        let (name, supply') := supply.fresh "__Continue"
        (.goTo name, .loop labels (some name) :: rest, supply')
    | some wanted =>
      if labels.contains wanted then
        (.goTo (Lua.spell wanted), .loop labels landing :: rest, supply)
      else
        let (jump, rest', supply') := continueJump label supply rest
        (jump, .loop labels landing :: rest', supply')
  | e :: rest =>
    let (jump, rest', supply') := continueJump label supply rest
    (jump, e :: rest', supply')

end Control

end EcmaLua.Emission
