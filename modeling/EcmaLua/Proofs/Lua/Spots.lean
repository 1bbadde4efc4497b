import Mathlib.Tactic.Common
import EcmaLua.Lua.Printer

/-!
# Spots of a chunk

The spots of a chunk are the places of its text that do not belong to the printer: the names, the
literals and the comments, in the order of the text. The settings decide about two kinds of them:
whether a checked name is wrapped, and whether a marking comment is written. A checked name at the
very end of what an assignment writes to is told apart from all others.
-/

namespace EcmaLua.Lua

/-- Where an expression ends: at the end of the left side of an assignment, or elsewhere. -/
inductive Side where
  | left
  | right
deriving DecidableEq, Repr

/-- What a word that is written as it is stands for. -/
inductive WordRole where
  /-- a name in an expression -/
  | mention
  /-- a name that a local, a parameter or a loop introduces -/
  | binder
  /-- a label, behind a `goto` or by itself -/
  | label
  /-- a numeral, a string or the field behind an expression -/
  | literal
deriving DecidableEq, Repr

/-- A place of a chunk that has a text of its own. -/
inductive Spot where
  /-- a checked name -/
  | read (side : Side) (name : String)
  | word (role : WordRole) (text : String)
  /-- a comment for a construct -/
  | note (text : String)
  /-- a marking comment -/
  | marker (text : String)
deriving DecidableEq, Repr

/-- Names that are introduced. -/
def binders (names : List String) : List Spot := names.map (.word .binder)

mutual

/-- The spots of an expression that ends on the given side. -/
@[simp] def Expr.spots (side : Side) : Expr → List Spot
  | .nil | .bool _ | .vararg => []
  | .int n => [.word .literal (toString n)]
  | .number x => [.word .literal (numeral x)]
  | .string text => [.word .literal (quote text)]
  | .bytes bytes => [.word .literal (quoteBytes bytes)]
  | .name text => [.word .mention text]
  | .read text => [.read side text]
  | .paren e => e.spots .right
  | .field e name => e.spots .right ++ [.word .literal (fieldSuffix name)]
  | .noted e text => e.spots .right ++ [.note text]
  | .unop _ e => e.spots side
  | .call f args => f.spots .right ++ Expr.spotsList args
  | .index e key => e.spots .right ++ key.spots .right
  | .binop _ left right => left.spots .right ++ right.spots side
  | .table fields => Field.spotsList fields
  | .func params _ body => binders params ++ Stat.spotsList body
  | .lambda steps result => Step.spotsList steps ++ result.spots .right

@[simp] def Expr.spotsList : List Expr → List Spot
  | [] => []
  | e :: rest => e.spots .right ++ Expr.spotsList rest

@[simp] def Field.spotsList : List Field → List Spot
  | [] => []
  | .item value :: rest => value.spots .right ++ Field.spotsList rest
  | .keyed key value :: rest => key.spots .right ++ value.spots .right ++ Field.spotsList rest

@[simp] def Step.spots : Step → List Spot
  | .define name value => binders [name] ++ value.spots .right
  | .assign target value => target.spots .left ++ value.spots .right

@[simp] def Step.spotsList : List Step → List Spot
  | [] => []
  | s :: rest => s.spots ++ Step.spotsList rest

@[simp] def Step.spotsOpt : Option Step → List Spot
  | none => []
  | some s => s.spots

@[simp] def Arm.spotsList : List Arm → List Spot
  | [] => []
  | .mk cond step :: rest => cond.spots .right ++ step.spots ++ Arm.spotsList rest

@[simp] def Tail.spots : Tail → List Spot
  | .none => []
  | .otherwise body => Stat.spotsList body
  | .elseif cond body tail => cond.spots .right ++ Stat.spotsList body ++ tail.spots

/-- The spots of a statement, in the order of the text. -/
@[simp] def Stat.spots : Stat → List Spot
  | .note text => [.note text]
  | .marker text => [.marker text]
  | .declare names => binders names
  | .goTo name | .label name => [.word .label name]
  | .breakLoop => []
  | .define names value => binders names ++ value.spots .right
  | .assign target value => target.spots .left ++ value.spots .right
  | .store target key => target.spots .left ++ [.word .mention key]
  | .call e => e.spots .right
  | .doBlock body => Stat.spotsList body
  | .whileLoop cond body => cond.spots .right ++ Stat.spotsList body
  | .repeatUntil body cond => Stat.spotsList body ++ cond.spots .right
  | .ifThen cond body tail => cond.spots .right ++ Stat.spotsList body ++ tail.spots
  | .select arms otherwise => Arm.spotsList arms ++ Step.spotsOpt otherwise
  | .forIn key value iterator body =>
    binders [key] ++ binders [value] ++ iterator.spots .right ++ Stat.spotsList body
  | .scoped proxy object body => binders [proxy] ++ object.spots .right ++ Stat.spotsList body
  | .ret value => value.spots .right

@[simp] def Stat.spotsList : List Stat → List Spot
  | [] => []
  | s :: rest => s.spots ++ Stat.spotsList rest

end

section Lists

theorem Stat.spotsList_append (a b : List Stat) :
    Stat.spotsList (a ++ b) = Stat.spotsList a ++ Stat.spotsList b := by
  induction a with
  | nil => rfl
  | cons s rest ih => rw [List.cons_append, Stat.spotsList, Stat.spotsList, ih, List.append_assoc]

theorem Stat.spotsList_singleton (s : Stat) : Stat.spotsList [s] = s.spots := by
  rw [Stat.spotsList, Stat.spotsList, List.append_nil]

theorem Field.spotsList_append (a b : List Field) :
    Field.spotsList (a ++ b) = Field.spotsList a ++ Field.spotsList b := by
  induction a with
  | nil => rfl
  | cons f rest ih =>
    cases f <;> simp [Field.spotsList, ih]

theorem Field.spotsList_items (es : List Expr) :
    Field.spotsList (es.map .item) = Expr.spotsList es := by
  induction es with
  | nil => rfl
  | cons e rest ih => rw [List.map_cons, Field.spotsList, Expr.spotsList, ih]

theorem Arm.spotsList_append (a b : List Arm) :
    Arm.spotsList (a ++ b) = Arm.spotsList a ++ Arm.spotsList b := by
  induction a with
  | nil => rfl
  | cons arm rest ih =>
    cases arm
    simp [Arm.spotsList, ih]

end Lists

end EcmaLua.Lua
