import EcmaLua.Source.Span

/-!
# Diagnostics

A diagnostic has a stable code, a severity, a message of one line, perhaps a line of help, and
the place that it is about. A report is the list of diagnostics in the order of their finding.
-/

namespace EcmaLua

/-- How bad a finding is. -/
inductive Severity where
  /-- the output is faithful -/
  | hint
  /-- output was made, with some construct degraded or dropped -/
  | warning
  /-- there is no usable output -/
  | error
deriving DecidableEq, Repr

def Severity.text : Severity → String
  | .hint => "hint"
  | .warning => "warning"
  | .error => "error"

/-- What a diagnostic is about. -/
inductive Code where
  | parseError
  | unsupportedStatement
  | unsupportedExpression
  | unsupportedPattern
  | unsupportedProperty
  | multipleCatchClauses
  | strayContinue
  | partialWithScope
  | dynamicEval
  | internalError
deriving DecidableEq, Repr

namespace Code

/-- Every code, in the order of explanation. -/
def all : List Code :=
  [.parseError, .unsupportedStatement, .unsupportedExpression, .unsupportedPattern,
    .unsupportedProperty, .multipleCatchClauses, .strayContinue, .partialWithScope,
    .dynamicEval, .internalError]

/-- The stable spelling. -/
def text : Code → String
  | .parseError => "P001"
  | .unsupportedStatement => "U001"
  | .unsupportedExpression => "U002"
  | .unsupportedPattern => "U003"
  | .unsupportedProperty => "U004"
  | .multipleCatchClauses => "U005"
  | .strayContinue => "U006"
  | .partialWithScope => "S001"
  | .dynamicEval => "S002"
  | .internalError => "I001"

/-- Read a code in any case of its letter. -/
def ofText? (s : String) : Option Code :=
  all.find? fun code => code.text.toList.map Char.toLower == s.toList.map Char.toLower

/-- The severity unless one is given. -/
def severity : Code → Severity
  | .parseError | .internalError => .error
  | .partialWithScope | .dynamicEval => .hint
  | _ => .warning

end Code

/-- One finding. -/
structure Diagnostic where
  code : Code
  severity : Severity
  message : String
  help : Option String := none
  span : Span := .nowhere
deriving DecidableEq, Repr

/-- Diagnostics in the order of their finding. -/
abbrev Report := List Diagnostic

namespace Report

/-- How many diagnostics have a severity. -/
def count (r : Report) (s : Severity) : Nat := (r.filter fun d => d.severity == s).length

def hasErrors (r : Report) : Bool := r.any fun d => d.severity == .error

def mentions (r : Report) (code : Code) : Bool := r.any fun d => d.code == code

end Report

end EcmaLua
