import Mathlib.Tactic.Common
import EcmaLua.Lua.Chunk

/-!
# Jumps and their targets

A `goto` of Lua reaches the labels that come later in its own block or behind a block around it,
and a `break` the loops around it, both only within one function. A block is settled when every
jump in it has such a target. The same predicate keeps the texts and the loops of the tree within
a vocabulary; the texts can be told apart from the jumps in the text.
-/

namespace EcmaLua.Lua

/-- The texts and the loops that may occur in a tree. -/
structure Vocabulary where
  /-- names of variables, parameters and labels -/
  name : String → Prop
  /-- the contents of comments -/
  note : String → Prop
  /-- the bodies of loops -/
  loop : List Stat → Prop := fun _ => True

/-- All texts. -/
def Vocabulary.all : Vocabulary where
  name _ := True
  note _ := True

/-- The labels that stand directly among the statements. -/
def Stat.labels : List Stat → List String
  | [] => []
  | .label name :: rest => name :: Stat.labels rest
  | _ :: rest => Stat.labels rest

mutual

/-- The texts are of the vocabulary, and every function in the expression is settled by itself. -/
def Expr.Settled (v : Vocabulary) : Expr → Prop
  | .nil | .bool _ | .vararg | .int _ | .number _ | .string _ | .bytes _ => True
  | .name text | .read text => v.name text
  | .paren e | .field e _ | .unop _ e => e.Settled v
  | .call f args => f.Settled v ∧ Expr.SettledList v args
  | .index e key => e.Settled v ∧ key.Settled v
  | .binop _ left right => left.Settled v ∧ right.Settled v
  | .table fields => Field.SettledList v fields
  | .func params _ body => (∀ p ∈ params, v.name p) ∧ Stat.SettledBlock v [] false body
  | .lambda steps result => Step.SettledList v steps ∧ result.Settled v
  | .noted e note => e.Settled v ∧ v.note note

def Expr.SettledList (v : Vocabulary) : List Expr → Prop
  | [] => True
  | e :: rest => e.Settled v ∧ Expr.SettledList v rest

def Field.SettledList (v : Vocabulary) : List Field → Prop
  | [] => True
  | .item value :: rest => value.Settled v ∧ Field.SettledList v rest
  | .keyed key value :: rest => key.Settled v ∧ value.Settled v ∧ Field.SettledList v rest

def Step.Settled (v : Vocabulary) : Step → Prop
  | .define name value => v.name name ∧ value.Settled v
  | .assign target value => target.Settled v ∧ value.Settled v

def Step.SettledList (v : Vocabulary) : List Step → Prop
  | [] => True
  | s :: rest => s.Settled v ∧ Step.SettledList v rest

def Step.SettledOpt (v : Vocabulary) : Option Step → Prop
  | none => True
  | some s => s.Settled v

def Arm.SettledList (v : Vocabulary) : List Arm → Prop
  | [] => True
  | .mk cond step :: rest => cond.Settled v ∧ step.Settled v ∧ Arm.SettledList v rest

/-- The branches of a conditional see what the conditional sees. -/
def Tail.Settled (v : Vocabulary) (visible : List String) (loop : Bool) : Tail → Prop
  | .none => True
  | .otherwise body => Stat.SettledBlock v visible loop body
  | .elseif cond body tail =>
    cond.Settled v ∧ Stat.SettledBlock v visible loop body ∧ tail.Settled v visible loop

/-- The jumps of a statement have targets: `visible` are the labels that a `goto` at its place
can reach, and `loop` tells whether a `break` has a loop to leave. -/
def Stat.Settled (v : Vocabulary) (visible : List String) (loop : Bool) : Stat → Prop
  | .note text | .marker text => v.note text
  | .declare names => ∀ n ∈ names, v.name n
  | .define names value => (∀ n ∈ names, v.name n) ∧ value.Settled v
  | .assign target value => target.Settled v ∧ value.Settled v
  | .store target key => target.Settled v ∧ v.name key
  | .call e => e.Settled v
  | .doBlock body => Stat.SettledBlock v visible loop body
  | .whileLoop cond body => cond.Settled v ∧ Stat.SettledBlock v visible true body ∧ v.loop body
  | .repeatUntil body cond =>
    -- one that always ends is a `switch`
    Stat.SettledBlock v visible true body ∧ cond.Settled v ∧ (cond = .bool true ∨ v.loop body)
  | .ifThen cond body tail =>
    cond.Settled v ∧ Stat.SettledBlock v visible loop body ∧ tail.Settled v visible loop
  | .select arms otherwise => Arm.SettledList v arms ∧ Step.SettledOpt v otherwise
  | .forIn key value iterator body =>
    v.name key ∧ v.name value ∧ iterator.Settled v ∧ Stat.SettledBlock v visible true body ∧
      v.loop body
  | .scoped proxy object body =>
    v.name proxy ∧ object.Settled v ∧ Stat.SettledBlock v visible loop body
  | .goTo label => label ∈ visible ∧ v.name label
  | .label name => v.name name
  | .breakLoop => loop = true
  | .ret value => value.Settled v

/-- Each statement of a block sees the labels that come after it, and those visible outside. -/
def Stat.SettledBlock (v : Vocabulary) (visible : List String) (loop : Bool) :
    List Stat → Prop
  | [] => True
  | s :: rest =>
    s.Settled v (Stat.labels rest ++ visible) loop ∧ Stat.SettledBlock v visible loop rest

end

/-- A line that jumps, or that is jumped to. -/
inductive Mark where
  | goTo (label : String)
  | label (name : String)
  | leave
deriving DecidableEq, Repr

mutual

/-- The marks in the functions of an expression, in the order of the text. -/
def Expr.marks : Expr → List Mark
  | .nil | .bool _ | .vararg | .int _ | .number _ | .string _ | .bytes _ | .name _ | .read _ => []
  | .paren e | .field e _ | .unop _ e | .noted e _ => e.marks
  | .call f args => f.marks ++ Expr.marksList args
  | .index e key => e.marks ++ key.marks
  | .binop _ left right => left.marks ++ right.marks
  | .table fields => Field.marksList fields
  | .func _ _ body => Stat.marksList body
  | .lambda steps result => Step.marksList steps ++ result.marks

def Expr.marksList : List Expr → List Mark
  | [] => []
  | e :: rest => e.marks ++ Expr.marksList rest

def Field.marksList : List Field → List Mark
  | [] => []
  | .item value :: rest => value.marks ++ Field.marksList rest
  | .keyed key value :: rest => key.marks ++ value.marks ++ Field.marksList rest

def Step.marks : Step → List Mark
  | .define _ value => value.marks
  | .assign target value => target.marks ++ value.marks

def Step.marksList : List Step → List Mark
  | [] => []
  | s :: rest => s.marks ++ Step.marksList rest

def Step.marksOpt : Option Step → List Mark
  | none => []
  | some s => s.marks

def Arm.marksList : List Arm → List Mark
  | [] => []
  | .mk cond step :: rest => cond.marks ++ step.marks ++ Arm.marksList rest

def Tail.marks : Tail → List Mark
  | .none => []
  | .otherwise body => Stat.marksList body
  | .elseif cond body tail => cond.marks ++ Stat.marksList body ++ tail.marks

/-- The marks of a statement, in the order of the text. -/
def Stat.marks : Stat → List Mark
  | .note _ | .marker _ | .declare _ => []
  | .define _ value => value.marks
  | .assign target value => target.marks ++ value.marks
  | .store target _ => target.marks
  | .call e => e.marks
  | .doBlock body => Stat.marksList body
  | .whileLoop cond body => cond.marks ++ Stat.marksList body
  | .repeatUntil body cond => Stat.marksList body ++ cond.marks
  | .ifThen cond body tail => cond.marks ++ Stat.marksList body ++ tail.marks
  | .select arms otherwise => Arm.marksList arms ++ Step.marksOpt otherwise
  | .forIn _ _ iterator body => iterator.marks ++ Stat.marksList body
  | .scoped _ object body => object.marks ++ Stat.marksList body
  | .goTo label => [.goTo label]
  | .label name => [.label name]
  | .breakLoop => [.leave]
  | .ret value => value.marks

def Stat.marksList : List Stat → List Mark
  | [] => []
  | s :: rest => s.marks ++ Stat.marksList rest

end

mutual

def Tail.ownMarks : Tail → List Mark
  | .none => []
  | .otherwise body => Stat.ownMarksList body
  | .elseif _ body tail => Stat.ownMarksList body ++ tail.ownMarks

/-- The marks of a statement outside the functions in it. -/
def Stat.ownMarks : Stat → List Mark
  | .doBlock body | .whileLoop _ body | .repeatUntil body _ | .forIn _ _ _ body
  | .scoped _ _ body => Stat.ownMarksList body
  | .ifThen _ body tail => Stat.ownMarksList body ++ tail.ownMarks
  | .goTo label => [.goTo label]
  | .label name => [.label name]
  | .breakLoop => [.leave]
  | _ => []

def Stat.ownMarksList : List Stat → List Mark
  | [] => []
  | s :: rest => s.ownMarks ++ Stat.ownMarksList rest

end

section Blocks

variable {v : Vocabulary} {visible : List String} {loop : Bool} {a b : List Stat}

attribute [local simp] Stat.labels Stat.ownMarks Stat.ownMarksList

theorem Stat.labels_append (a b : List Stat) :
    Stat.labels (a ++ b) = Stat.labels a ++ Stat.labels b := by
  induction a with
  | nil => rfl
  | cons s rest ih => cases s <;> simp [ih]

theorem Stat.labels_map_label (names : List String) :
    Stat.labels (names.map .label) = names := by
  induction names with
  | nil => rfl
  | cons name rest ih => simp [ih]

theorem Stat.ownMarksList_singleton (s : Stat) : Stat.ownMarksList [s] = s.ownMarks := by
  simp

theorem Stat.ownMarksList_append (a b : List Stat) :
    Stat.ownMarksList (a ++ b) = Stat.ownMarksList a ++ Stat.ownMarksList b := by
  induction a with
  | nil => rfl
  | cons s rest ih => simp [ih]

/-- Code without marks has no labels. -/
theorem Stat.labels_eq_nil {code : List Stat} (h : Stat.ownMarksList code = []) :
    Stat.labels code = [] := by
  induction code with
  | nil => rfl
  | cons s rest ih =>
    obtain ⟨hs, hrest⟩ := List.append_eq_nil_iff.mp h
    cases s with
    | label name => exact absurd hs (by simp)
    | _ => exact ih hrest

theorem Stat.ownMarksList_map_label (names : List String) :
    Stat.ownMarksList (names.map .label) = names.map .label := by
  induction names with
  | nil => rfl
  | cons name rest ih => simp [ih]

theorem Stat.settledBlock_map_label {names : List String} (h : ∀ n ∈ names, v.name n) :
    Stat.SettledBlock v visible loop (names.map .label) := by
  induction names with
  | nil => trivial
  | cons name rest ih =>
    obtain ⟨hname, hrest⟩ := List.forall_mem_cons.mp h
    exact ⟨hname, ih hrest⟩

/-- The first statements of a block see the labels of the later ones too. -/
theorem Stat.settledBlock_append :
    Stat.SettledBlock v visible loop (a ++ b) ↔
      Stat.SettledBlock v (Stat.labels b ++ visible) loop a ∧
        Stat.SettledBlock v visible loop b := by
  induction a with
  | nil => simp [Stat.SettledBlock]
  | cons s rest ih =>
    simp only [List.cons_append, Stat.SettledBlock, ih, Stat.labels_append, List.append_assoc,
      and_assoc]

end Blocks

end EcmaLua.Lua
