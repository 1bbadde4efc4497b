import EcmaLua.Surface.Basic

/-!
# Expressions read as targets

What stands before an assignment operator or an arrow is first read as an expression. These
predicates tell which expressions are places, and which are patterns of places or of names.
-/

namespace EcmaLua.Surface

/-- Whether the expression is a property of `super`. -/
def Expr.isSuperMember : Expr → Bool
  | .foreign .superMember _ => true
  | _ => false

/-- Whether the expression is a variable or a property. -/
def Expr.isPlace : Expr → Bool
  | .ident _ | .member .. | .index .. => true
  | .foreign .privateMember _ | .foreign .superMember _ => true
  | .paren e => e.isPlace
  | _ => false

mutual

/-- Whether the expression is a pattern, perhaps with a default value: of names only when
`binding`, else of places. -/
def Expr.isPattern (binding : Bool) : Expr → Bool
  | .ident _ => true
  | .array elements _ => Arg.arePatterns binding elements
  | .object members => Member.arePatterns binding members
  | .assign .plain target _ _ => target.isPattern binding
  | .assignForeign .plain (.pattern ..) _ => true
  | .assignForeign .plain (.expr _) _ => !binding
  | .member .. | .index .. => !binding
  | .foreign .privateMember _ | .foreign .superMember _ => !binding
  | .paren e => !binding && e.isPlace
  | _ => false

def Arg.arePatterns (binding : Bool) : List (Option Arg) → Bool
  | [] => true
  | none :: rest => Arg.arePatterns binding rest
  | some ⟨none, e⟩ :: rest => e.isPattern binding && Arg.arePatterns binding rest
  | some ⟨some _, e⟩ :: rest => rest.isEmpty && e.isPattern binding

def Member.arePatterns (binding : Bool) : List Member → Bool
  | [] => true
  | .shorthand _ :: rest | .assigned .. :: rest => Member.arePatterns binding rest
  | .keyValue _ e :: rest => e.isPattern binding && Member.arePatterns binding rest
  | .spread _ e :: rest => rest.isEmpty && e.isPattern binding
  | .method .. :: _ | .getter .. :: _ | .setter .. :: _ => false

end

/-- Whether call arguments are the parameters of an arrow function. -/
def Arg.areParameters : List Arg → Bool
  | [] => true
  | ⟨none, e⟩ :: rest => e.isPattern true && Arg.areParameters rest
  | ⟨some _, e⟩ :: rest => rest.isEmpty && e.isPattern true

/-- The kind of an array or object literal that is a pattern of places. -/
def Expr.patternKind? (e : Expr) : Option PatternKind :=
  match e with
  | .array .. => if e.isPattern false then some .array else none
  | .object .. => if e.isPattern false then some .object else none
  | _ => none

/-- Whether the expression is an arrow function without parentheses, behind which no operator
can follow. -/
def Expr.isArrow : Expr → Bool
  | .foreign .arrow _ => true
  | _ => false

/-- Whether the expression is an optional chain without parentheses, which what follows goes on
with. -/
def Expr.isChain : Expr → Bool
  | .foreign .optionalChain _ => true
  | _ => false

/-- Whether the expression is a unary operation without parentheses, which cannot be the base of
a power. -/
def Expr.isUnary : Expr → Bool
  | .unary .. | .foreign .awaitExpr _ => true
  | _ => false

/-- Whether the expression is a conjunction or disjunction without parentheses. -/
def Expr.isLogical : Expr → Bool
  | .binary (.logical _) .. => true
  | _ => false

/-- Whether the expression is a choice between nullish values without parentheses. -/
def Expr.isNullish : Expr → Bool
  | .binary .nullish .. => true
  | _ => false

end EcmaLua.Surface
