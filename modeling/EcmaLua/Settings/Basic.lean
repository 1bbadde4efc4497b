/-!
# Settings

What can be chosen about the generated text.
-/

namespace EcmaLua

/-- The line terminator of the generated text. -/
inductive Newline where
  | lf
  | crlf
deriving DecidableEq, Repr

def Newline.text : Newline → String
  | .lf => "\n"
  | .crlf => "\r\n"

/-- The choices for one conversion. -/
structure Settings where
  /-- wrap reads of variables in a check that they are assigned -/
  refGuard : Bool := false
  newline : Newline := .crlf
  /-- write the comments that mark the program and the phases of `try` and `with` -/
  markers : Bool := true
deriving DecidableEq, Repr

end EcmaLua
