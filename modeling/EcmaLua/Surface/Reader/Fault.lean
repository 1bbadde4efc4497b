import EcmaLua.Source.Span

/-!
# What can be wrong with a script

A fault ends the reading. A misplaced jump does not: it is tolerated and reported.
-/

namespace EcmaLua.Surface.Reader

/-- The faults that end the reading of a script. -/
inductive Fault where
  | unexpectedCharacter
  | unterminatedComment
  | unterminatedString
  | unterminatedTemplate
  | unterminatedRegex
  | badEscape
  | badNumber
  /-- the token that was wanted, in words -/
  | expected (what : String)
  | reservedName (name : String)
  | badTarget
  | lineBreakAfterThrow
  | tooDeep
deriving DecidableEq, Repr

def Fault.message : Fault → String
  | .unexpectedCharacter => "Unexpected character"
  | .unterminatedComment => "Unterminated block comment"
  | .unterminatedString => "Unterminated string constant"
  | .unterminatedTemplate => "Unterminated template"
  | .unterminatedRegex => "Unterminated regexp literal"
  | .badEscape => "Invalid escape sequence"
  | .badNumber => "Invalid number"
  | .expected what => "Expected " ++ what
  | .reservedName name => "'" ++ name ++ "' is reserved"
  | .badTarget => "Cannot assign to this"
  | .lineBreakAfterThrow => "A line break cannot follow 'throw'"
  | .tooDeep => "The script is nested too deeply"

/-- A fault and the offset at which it was found. -/
structure SyntaxError where
  fault : Fault
  offset : Nat
deriving DecidableEq, Repr

/-- Jump statements where they cannot be. -/
inductive Misplaced where
  | returnOutside
  | breakOutside
  | breakLabel
  | continueOutside
  | continueLabel
deriving DecidableEq, Repr

def Misplaced.message : Misplaced → String
  | .returnOutside => "Return statement is not allowed here"
  | .breakOutside =>
    "A 'break' statement can only be used within an enclosing iteration or switch statement"
  | .breakLabel => "A 'break' statement can only jump to a label of an enclosing statement"
  | .continueOutside =>
    "A 'continue' statement can only jump to a label of an enclosing iteration statement"
  | .continueLabel => "Jump target cannot cross function boundary"

end EcmaLua.Surface.Reader
