import EcmaLua.Surface.Reader.Parser

/-!
# The shape of the grammar

The grammar's rules call each other through a family of parsers, one for each nonterminal. The
family is the rules applied to itself, to a given depth of nesting.
-/

namespace EcmaLua.Surface.Reader

inductive Nonterminal where
  /-- expressions with commas -/
  | expression
  | assignment
  /-- operations whose operators bind at least that tightly -/
  | binary (least : Nat)
  | unary
  /-- properties and calls, without operators -/
  | leftHand
  /-- what can stand behind `new`: no call in it -/
  | callee
  /-- what a declaration binds -/
  | binding
  /-- a statement by itself, where no lexical declaration can stand -/
  | statement
  /-- a statement or declaration in a list of them -/
  | item
  /-- statements in braces -/
  | block
deriving DecidableEq, Repr

/-- What a nonterminal reads. -/
@[reducible]
def Nonterminal.Result : Nonterminal → Type
  | .expression | .assignment | .binary _ | .unary | .leftHand | .callee => Expr
  | .binding => Pattern
  | .statement | .item => Stmt
  | .block => List Stmt

/-- A parser for each nonterminal. -/
structure Grammar where
  parse : (k : Nonterminal) → Parser k.Result

namespace Grammar

def expression (g : Grammar) : Parser Expr := g.parse .expression

def assignment (g : Grammar) : Parser Expr := g.parse .assignment

def binary (g : Grammar) (least : Nat) : Parser Expr := g.parse (.binary least)

def unary (g : Grammar) : Parser Expr := g.parse .unary

def leftHand (g : Grammar) : Parser Expr := g.parse .leftHand

def callee (g : Grammar) : Parser Expr := g.parse .callee

def binding (g : Grammar) : Parser Pattern := g.parse .binding

def statement (g : Grammar) : Parser Stmt := g.parse .statement

def item (g : Grammar) : Parser Stmt := g.parse .item

def block (g : Grammar) : Parser (List Stmt) := g.parse .block

/-- Rules applied to themselves down to a depth of nesting. -/
def fix (rules : Grammar → (k : Nonterminal) → Parser k.Result) :
    Nat → (k : Nonterminal) → Parser k.Result
  | 0, _ => fault .tooDeep
  | depth + 1, k => rules ⟨fix rules depth⟩ k

end Grammar

end EcmaLua.Surface.Reader
