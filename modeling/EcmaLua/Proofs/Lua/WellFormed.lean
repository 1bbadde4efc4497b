import EcmaLua.Proofs.Lua.Jumps
import EcmaLua.Proofs.Lua.Scanning

/-!
# Well-formed chunks

The conditions on a tree under which its text is Lua: names are names, what stands in front of a
call or an index is no operator expression, an assignment writes to a variable, a statement
that is an expression is a call, a key is stored at the start of its loop only, and a `return` comes
last in its block, up to comments. What counts as a name or a comment is left to a vocabulary.
-/

namespace EcmaLua.Lua

namespace Expr

/-- Whether the expression can stand in front of a call or an index, perhaps in parentheses
that the printer adds. -/
def isPrefixable : Expr → Bool
  | .nil | .bool _ | .int _ | .string _ | .bytes _ | .table _ => true
  | .name _ | .read _ | .paren _ | .call .. | .field .. | .index .. => true
  | .vararg | .number _ | .unop .. | .binop .. | .func .. | .lambda .. | .noted .. => false

/-- Whether the expression can be assigned to. -/
def isVar : Expr → Bool
  | .name _ | .field .. | .index .. => true
  | _ => false

def isCall : Expr → Bool
  | .call .. => true
  | _ => false

end Expr

/-- The texts that the grammar of Lua has in these places. -/
def Vocabulary.grammatical : Vocabulary where
  name text := isName text = true
  note text := isRemark text = true

/-- A list of names that is not empty. -/
def AreNames (v : Vocabulary) (names : List String) : Prop := names ≠ [] ∧ ∀ n ∈ names, v.name n

/-- Whether a statement is a comment. -/
def Stat.isComment : Stat → Bool
  | .note text | .marker text => isRemark text
  | _ => false

/-- Whether a statement has to be the last of its block. -/
def Stat.isReturn : Stat → Bool
  | .ret _ => true
  | _ => false

mutual

def Expr.WellFormed (v : Vocabulary) : Expr → Prop
  | .nil | .bool _ | .vararg | .int _ | .number _ | .string _ | .bytes _ => True
  | .name text | .read text => v.name text
  | .paren e => e.WellFormed v
  | .call f args => f.isPrefixable = true ∧ f.WellFormed v ∧ Expr.WellFormedList v args
  | .field e _ => e.isPrefixable = true ∧ e.WellFormed v
  | .index e key => e.isPrefixable = true ∧ e.WellFormed v ∧ key.WellFormed v
  | .unop .not e => e.WellFormed v
  | .unop .neg e => e.isCall = true ∧ e.WellFormed v
  | .binop _ left right => left.WellFormed v ∧ right.WellFormed v
  | .table fields => Field.WellFormedList v fields
  | .func params _ body => (∀ n ∈ params, v.name n) ∧ Stat.WellFormedBlock v none body
  | .lambda steps result => Step.WellFormedList v steps ∧ result.WellFormed v
  | .noted e note => e.WellFormed v ∧ v.note note

def Expr.WellFormedList (v : Vocabulary) : List Expr → Prop
  | [] => True
  | e :: rest => e.WellFormed v ∧ Expr.WellFormedList v rest

def Field.WellFormedList (v : Vocabulary) : List Field → Prop
  | [] => True
  | .item value :: rest => value.WellFormed v ∧ Field.WellFormedList v rest
  | .keyed key value :: rest =>
    key.WellFormed v ∧ value.WellFormed v ∧ Field.WellFormedList v rest

def Step.WellFormed (v : Vocabulary) : Step → Prop
  | .define name value => v.name name ∧ value.WellFormed v
  | .assign target value => target.isVar = true ∧ target.WellFormed v ∧ value.WellFormed v

def Step.WellFormedList (v : Vocabulary) : List Step → Prop
  | [] => True
  | s :: rest => s.WellFormed v ∧ Step.WellFormedList v rest

def Step.WellFormedOpt (v : Vocabulary) : Option Step → Prop
  | none => True
  | some s => s.WellFormed v

def Arm.WellFormedList (v : Vocabulary) : List Arm → Prop
  | [] => True
  | .mk cond step :: rest => cond.WellFormed v ∧ step.WellFormed v ∧ Arm.WellFormedList v rest

def Tail.WellFormed (v : Vocabulary) : Tail → Prop
  | .none => True
  | .otherwise body => Stat.WellFormedBlock v none body
  | .elseif cond body tail =>
    cond.WellFormed v ∧ Stat.WellFormedBlock v none body ∧ tail.WellFormed v

/-- `stored` is the key that the statement can store, if it is the first of a loop. -/
def Stat.WellFormed (v : Vocabulary) (stored : Option String) : Stat → Prop
  | .note text | .marker text => v.note text
  | .declare names => AreNames v names
  | .define names value => AreNames v names ∧ value.WellFormed v
  | .assign target value => target.isVar = true ∧ target.WellFormed v ∧ value.WellFormed v
  | .store target key =>
    (target.isVar = true ∧ target.WellFormed v ∧ v.name key) ∧ some key = stored
  | .call e => e.isCall = true ∧ e.WellFormed v
  | .doBlock body => Stat.WellFormedBlock v none body
  | .whileLoop cond body => cond.WellFormed v ∧ Stat.WellFormedBlock v none body
  | .repeatUntil body cond => Stat.WellFormedBlock v none body ∧ cond.WellFormed v
  | .ifThen cond body tail =>
    cond.WellFormed v ∧ Stat.WellFormedBlock v none body ∧ tail.WellFormed v
  | .select arms otherwise =>
    arms ≠ [] ∧ Arm.WellFormedList v arms ∧ Step.WellFormedOpt v otherwise
  | .forIn key value iterator body =>
    v.name key ∧ v.name value ∧ iterator.WellFormed v ∧ Stat.WellFormedBlock v (some key) body
  | .scoped proxy object body =>
    v.name proxy ∧ object.WellFormed v ∧ Stat.WellFormedBlock v none body
  | .goTo label => v.name label
  | .label name => v.name name
  | .breakLoop => True
  | .ret value => value.WellFormed v

/-- Statements that make a block: only comments come behind a `return`. -/
def Stat.WellFormedBlock (v : Vocabulary) (stored : Option String) : List Stat → Prop
  | [] => True
  | s :: rest =>
    s.WellFormed v stored ∧ (s.isReturn = true → ∀ t ∈ rest, t.isComment = true)
      ∧ Stat.WellFormedBlock v none rest

end

theorem Stat.WellFormed.first {v : Vocabulary} {s : Stat} (h : s.WellFormed v none)
    (stored : Option String) : s.WellFormed v stored := by
  cases s with
  | store target key => cases h.2
  | _ => exact h

/-- A block can be the start of a loop. -/
theorem Stat.WellFormedBlock.first {v : Vocabulary} {code : List Stat} {stored : Option String}
    (h : Stat.WellFormedBlock v none code) : Stat.WellFormedBlock v stored code := by
  cases code with
  | nil => trivial
  | cons s rest => exact ⟨h.1.first stored, h.2⟩

end EcmaLua.Lua
