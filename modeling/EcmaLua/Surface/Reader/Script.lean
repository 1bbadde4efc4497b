import EcmaLua.Surface.Reader.Statement

/-!
# Reading scripts

The grammar as a whole, and the reading of a text by it.
-/

namespace EcmaLua.Surface.Reader

/-- The rule of each nonterminal. -/
def rules (g : Grammar) : (k : Nonterminal) → Parser k.Result
  | .expression => expressionRule g
  | .assignment => assignmentRule g
  | .binary least => binaryRule g least
  | .unary => unaryRule g
  | .leftHand => leftHandRule g
  | .callee => calleeRule g
  | .binding => bindingRule g
  | .statement => statementRule g false
  | .item => statementRule g true
  | .block => blockRule g

/-- The grammar to a depth of nesting. -/
def grammar (depth : Nat) : Grammar := ⟨Grammar.fix rules depth⟩

/-- The statements of a script up to its end. Between two tokens at most seven nonterminals open,
so that the length of the text bounds the nesting. -/
def scriptRule : Parser (List Stmt) := do
  let c ← get
  withDirective c (statementsUntil (grammar (7 * c.limit + 16)) atStop)

/-- A script that was read, with the misplaced jumps in it. -/
structure Reading where
  script : Script
  misplaced : List (Misplaced × Extent)

end Reader

open Reader

/-- Read a text as a script. Positions count its bytes from one, a mark of the byte order at its
start left out. -/
def Script.read (text : String) : Except SyntaxError Reading := do
  let cs := skipMark text.toList
  let limit := cs.length + 1
  let cursor ← scanFrom limit 0 (skipHashbang cs) true
  let (body, final) ← ((scriptRule.run {}).run cursor)
  pure ⟨⟨body⟩, final.misplaced⟩

end EcmaLua.Surface
