import EcmaLua.Diagnostic.Basic
import EcmaLua.Program.Basic

/-!
# Findings

The causes that a conversion reports, and the diagnostic of each.
-/

namespace EcmaLua

/-- What a conversion can find to report. -/
inductive Finding where
  /-- the text is not a script -/
  | syntaxError (message : String) (span : Span)
  /-- the text breaks a rule of scripts, and can be read all the same -/
  | toleratedError (message : String) (span : Span)
  | unsupported (node : Unsupported)
  /-- a jump whose target lies outside an enclosing `try` -/
  | blockedBreak (span : Span)
  | blockedContinue (span : Span)
  /-- a jump without a target -/
  | strayBreak (span : Span)
  | strayContinue (span : Span)
  | manyCatches (count : Nat) (span : Span)
  | namelessFunction
  /-- a `with` statement, with the names that its object may hold -/
  | withScope (names : List String) (span : Span)
  | directEval (span : Span)
deriving DecidableEq, Repr

/-- The code for a construct outside the subset. -/
def Category.code : Category → Code
  | .statement => .unsupportedStatement
  | .expression => .unsupportedExpression
  | .pattern => .unsupportedPattern
  | .property => .unsupportedProperty

namespace Finding

def code : Finding → Code
  | .syntaxError .. | .toleratedError .. => .parseError
  | .unsupported node => node.category.code
  | .blockedBreak _ | .blockedContinue _ | .strayBreak _ => .unsupportedStatement
  | .strayContinue _ => .strayContinue
  | .manyCatches .. => .multipleCatchClauses
  | .namelessFunction => .internalError
  | .withScope .. => .partialWithScope
  | .directEval _ => .dynamicEval

def message : Finding → String
  | .syntaxError text _ | .toleratedError text _ => text
  | .unsupported node => node.kind ++ " is not supported"
  | .blockedBreak _ => "break cannot leave a try/catch/finally block"
  | .blockedContinue _ => "continue cannot leave a try/catch/finally block"
  | .strayBreak _ => "break has no target"
  | .strayContinue _ => "continue has no enclosing loop"
  | .manyCatches count _ => toString count ++ " catch clauses on one try; only the first is used"
  | .namelessFunction => "function declaration without a name"
  | .withScope .. => "names in a with body are not looked up on the scope object"
  | .directEval _ => "direct eval cannot see local variables"

def help : Finding → Option String
  | .withScope (name :: names) _ =>
    some ("affected names: " ++ ", ".intercalate (name :: names))
  | .directEval _ => some "the evaluated code runs in the global scope of the Lua runtime"
  | _ => none

def span : Finding → Span
  | .syntaxError _ span | .toleratedError _ span | .blockedBreak span | .blockedContinue span
  | .strayBreak span | .strayContinue span | .manyCatches _ span | .withScope _ span
  | .directEval span => span
  | .unsupported node => node.span
  | .namelessFunction => .nowhere

/-- The severity of the code, except that what can be tolerated is no error. -/
def severity : Finding → Severity
  | .toleratedError .. => .warning
  | f => f.code.severity

/-- The diagnostic of a finding. -/
def diagnostic (f : Finding) : Diagnostic where
  code := f.code
  severity := f.severity
  message := f.message
  help := f.help
  span := f.span

end Finding

end EcmaLua
