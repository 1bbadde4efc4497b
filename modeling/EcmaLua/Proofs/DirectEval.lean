import EcmaLua.Proofs.Surface.Nodes

/-!
# Direct `eval` is reported

While a script becomes a program, every call of `eval` by its name is reported. What is made may be
dropped later on, when something further in the same construct turns out to be outside the subset:
the report stays all the same. So a program has no more such calls than there are reports, and just
as many if nothing in it is outside the subset. Hoisting moves the calls and keeps their number.
-/

namespace EcmaLua

open scoped List

namespace Fragment

/-- Add up over all fragments within the given ones. -/
def count (own : Fragment → Nat) (l : List Fragment) : Nat := (l.map (total true own)).sum

section Count

variable {own : Fragment → Nat} {l m : List Fragment}

@[simp]
theorem count_nil : count own [] = 0 := rfl

@[simp]
theorem count_append : count own (l ++ m) = count own l + count own m := by
  simp [count]

theorem count_of_perm (h : l ~ m) : count own l = count own m := (h.map _).sum_eq

theorem count_singleton (p : Fragment) : count own [p] = own p + count own p.parts := by
  simp [count, total_true own p]

end Count

/-- Hoisting moves calls, and each stays what it is. -/
theorem moves_evalCall : Moves evalCall evalCall where
  expr e := by
    cases e with
    | call callee args => cases callee <;> rfl
    | _ => rfl
  func _ := rfl
  initializer _ _ := rfl
  head _ _ := rfl
  stmt _ _ _ _ := rfl
  funcStmt _ := rfl
  newBlank := by rintro _ ⟨⟩ <;> rfl
  oldBlank := by rintro _ ⟨⟩ <;> rfl

end Fragment

/-- How often something is found in a program, at any depth. -/
def Program.count (own : Fragment → Nat) (p : Program) : Nat :=
  Fragment.count own (p.body.map .stmt)

theorem Program.count_evalCall_hoist (p : Program) :
    p.hoist.count Fragment.evalCall = p.count Fragment.evalCall := by
  have hroot := Fragment.moves_evalCall.total_func ⟨none, [], p.body⟩
  rw [Fragment.total_true, Fragment.total_true] at hroot
  exact Nat.add_left_cancel hroot

namespace Surface

open Fragment

section Counts

variable {o : Origin} {noted : List Finding} {a b : List Fragment}

@[simp]
theorem evalReports_nil : evalReports [] = 0 := rfl

@[simp]
theorem evalReports_append (a b : List Finding) :
    evalReports (a ++ b) = evalReports a + evalReports b :=
  List.countP_append

/-- Every call of `eval` that is made is reported. -/
theorem Origin.Builds.evalCall_le (h : o.Builds noted a b) :
    count evalCall b ≤ evalReports noted + count evalCall a := by
  induction h with
  | perm h => simp [count_of_perm h]
  | before a _ ih | behind c _ ih =>
    simp only [count_append, count_nil] at *
    omega
  | trans _ _ ih ih' =>
    rw [evalReports_append]
    omega
  | node h hparts => simp [count_singleton, h.evalCall, count_of_perm hparts]
  | refused a _ | kept a => simp [count_singleton, evalCall, parts]
  | statement => simp [count_singleton, evalCall, parts]

/-- No call is lost unless something outside the subset stands for it. -/
theorem Origin.Builds.evalCall_eq (h : o.Builds noted a b) (hnone : count outside b = 0) :
    count outside a = 0 ∧ count evalCall b = evalReports noted + count evalCall a := by
  induction h with
  | perm h => simp_all [count_of_perm h]
  | before a _ ih | behind c _ ih =>
    simp only [count_append, count_nil] at *
    omega
  | trans _ _ ih ih' =>
    rw [evalReports_append]
    omega
  | node h hparts => simp_all [count_singleton, h.evalCall, h.outside, count_of_perm hparts]
  | refused a _ | kept a | statement => simp [count_singleton, outside] at hnone

end Counts

/-- A program has no more direct calls of `eval` than are reported, and as many if nothing in it is
outside the subset. Hoisting keeps their number. -/
theorem Script.evalCalls_toProgram (script : Script) (numbering : Numbering) :
    let (program, findings) := script.toProgram numbering
    program.count evalCall ≤ evalReports findings ∧
      (program.count outside = 0 → program.count evalCall = evalReports findings) ∧
      program.hoist.count evalCall = program.count evalCall := by
  let o : Origin := ⟨numbering, fun _ => True, False⟩
  have hsuits : o.Suits script.parts script.Regular := ⟨fun _ _ => trivial, False.elim⟩
  have hbuilds := Script.builds_toProgram hsuits
  exact ⟨hbuilds.evalCall_le, fun hnone => (hbuilds.evalCall_eq hnone).2,
    Program.count_evalCall_hoist _⟩

end Surface

end EcmaLua
