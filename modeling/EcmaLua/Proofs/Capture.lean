import EcmaLua.Proofs.Emission.Accounting
import EcmaLua.Proofs.Emission.Labels

/-!
# Names that are captured

Generated code mentions names of its own next to those of the program. The reserved words keep seven
of them out of the way of the program's bindings; any other is captured by the binding of the same
name, and by no other binding. The labels are told apart as long as the Lua labels of nested
statements are different, which a label that ends like those behind labeled statements can prevent.
-/

namespace EcmaLua

open Emission
open Lua (Atom)

/-- A binding of the program has the Lua name. -/
def Program.Captures (p : Program) (name : String) : Prop :=
  ∃ x ∈ p.boundNames, Lua.spell x = name

/-- A name that generated code keeps for itself is captured by a binding of that name, and by
nothing if it is a reserved word. -/
theorem Program.captures_iff {name : String} (h : Internal name) (p : Program) :
    p.Captures name ↔ name ∈ p.boundNames ∧ name ∉ Lua.reserved := by
  constructor
  · rintro ⟨x, hx, heq⟩
    obtain ⟨rfl, hr⟩ := (h.plain.spell_eq_iff x).mp heq
    exact ⟨hx, hr⟩
  · rintro ⟨hx, hr⟩
    exact ⟨name, hx, (h.plain.spell_eq_iff name).mpr ⟨rfl, hr⟩⟩

namespace Emission

/-- Code may bind nothing but the receiver, the packed arguments, a name that was made up, or a
name of the list as it is spelled. -/
def mayBind (names : List String) : Allowance where
  allows
    | .bind name =>
      name = "self" ∨ name = "arguments" ∨ Generated name ∨ ∃ x ∈ names, Lua.spell x = name
    | _ => True
  generated h := Or.inr (Or.inr (Or.inl h))
  self := Or.inl rfl
  arguments := Or.inr (Or.inl rfl)
  clauses := trivial

theorem Visit.atom_ne_bind (v : Visit) (name : String) : v.atom ≠ .bind name := by
  cases v with
  | unsupported node inline => cases inline <;> simp [Visit.atom]
  | jump statement spelling => cases spelling <;> simp [Visit.atom]

end Emission

/-- What the code of a program binds. -/
theorem Program.captures_of_mem_atoms (p : Program) {name : String}
    (h : .bind name ∈ Lua.Stat.atomsList p.emit.chunk.body) :
    name = "self" ∨ name = "arguments" ∨ Generated name ∨ p.Captures name := by
  obtain ⟨visits, -, -, hfits⟩ :=
    p.accounts (Q := mayBind p.boundNames)
      (fun x hx => Or.inr (Or.inr (Or.inr ⟨x, hx, rfl⟩))) {}
  rcases hfits.accounted _ h with hvisit | hallowed
  · obtain ⟨v, -, heq⟩ := List.mem_map.mp hvisit
    exact absurd heq (v.atom_ne_bind name)
  · exact hallowed

/-- A labeled loop in a labeled loop. -/
def Stmt.nestedLoops (outer inner : String) : Stmt :=
  .labeled outer (.whileStmt .this (.labeled inner (.whileStmt .this .empty)))

/-- If nested loops have a Lua label in common, it stands where the other one is seen. -/
theorem Stmt.nestedLoops_meet {outer inner text : String} (ho : text ∈ labelTexts outer)
    (hi : text ∈ labelTexts inner) (s : State) :
    ¬ Lua.Stat.ApartBlock [] (Stmt.emitList [nestedLoops outer inner] s).1 := by
  intro h
  -- the blocks from the outside: behind the outer loop, in it, its body, and behind the inner loop
  obtain ⟨-, ⟨-, ⟨-, ⟨-, ⟨behind, ⟨within, -⟩, -⟩, -⟩, -⟩, -⟩, -⟩ := h
  have hafter : afterLabel inner ∉ labelTexts outer := behind.2 _ List.mem_cons_self
  have hspell : Lua.spell inner ∉ afterLabel inner :: labelTexts outer :=
    within.2 _ List.mem_cons_self
  rcases List.mem_cons.mp hi with rfl | hi
  · exact hspell (List.mem_cons_of_mem _ ho)
  · rw [List.mem_singleton.mp hi] at ho
    exact hafter ho

/-- A loop with a bare `continue` in a labeled loop. -/
def Stmt.landingLoop (outer : String) (span : Span) : Stmt :=
  .labeled outer (.whileStmt .this (.whileStmt .this (.continueStmt none span)))

/-- If the label is the text of the landing that the inner loop gets, the two meet. -/
theorem Stmt.landingLoop_meet (span : Span) (s : State) :
    ¬ Lua.Stat.ApartBlock []
      (Stmt.emitList [landingLoop (landingName (s.supply.last + 1)) span] s).1 := by
  intro h
  obtain ⟨-, ⟨-, ⟨-, ⟨-, ⟨within, -⟩, -⟩, -⟩, -⟩, -⟩ := h
  have hlanding : landingName (s.supply.last + 1) ∉
      labelTexts (landingName (s.supply.last + 1)) := within.2 _ List.mem_cons_self
  refine hlanding (List.mem_cons.mpr (Or.inl ?_))
  exact ((spell_eq_landingName_iff _ _).mpr rfl).symm

/-- Of the names that generated code keeps for itself, a program captures those that it binds
itself and that are not reserved, and no others; beyond the receiver, the packed arguments and the
names made up for it, the code binds only names of the program. In a program, a function or any
other body whose nested labels have no Lua label in common, no Lua label is called like another one
that is seen where it stands. This is needed: nested loops with a Lua label in common are not told
apart, and the label behind a statement is how another label is spelled, as is the landing of a
loop. -/
theorem Program.captured_exactly (p : Program) :
    (∀ name, Internal name → (p.Captures name ↔ name ∈ p.boundNames ∧ name ∉ Lua.reserved)) ∧
    (∀ name, .bind name ∈ Lua.Stat.atomsList p.emit.chunk.body →
      name = "self" ∨ name = "arguments" ∨ Generated name ∨ p.Captures name) ∧
    (Stmt.LabelsApartList [] p.body → Lua.Stat.ApartBlock [] p.emit.chunk.body) ∧
    (∀ (f : Func) (s : State), Stmt.LabelsApartList [] f.body → ∃ inputs packed code,
      (f.emit s).1 = Lua.Helper.defineFunction.call [.func inputs packed code] ∧
        Lua.Stat.ApartBlock [] code) ∧
    (∀ (body : List Stmt) (s : State), Stmt.LabelsApartList [] body →
      Lua.Stat.ApartBlock [] (Stmt.emitList body s).1) ∧
    (∀ outer inner text, text ∈ labelTexts outer → text ∈ labelTexts inner →
      ∀ s, ¬ Lua.Stat.ApartBlock [] (Stmt.emitList [Stmt.nestedLoops outer inner] s).1) ∧
    (∀ label, label ∉ Lua.reserved → Lua.spell (label ++ "__After") = afterLabel label) ∧
    ∀ span s, ¬ Lua.Stat.ApartBlock []
      (Stmt.emitList [Stmt.landingLoop (landingName (s.supply.last + 1)) span] s).1 := by
  refine ⟨fun name h => p.captures_iff h, fun name => p.captures_of_mem_atoms, p.apartBlock_emit,
    fun f s h => f.apartBlock_emit h s, fun body s h => ?_,
    fun outer inner text ho hi => Stmt.nestedLoops_meet ho hi, fun label => spell_append_after,
    Stmt.landingLoop_meet⟩
  exact Stmt.apartBlock_emitList h s

theorem ne_landingName_of_head {label : String} (h : label.toList.head? ≠ some '_') (k : Nat) :
    label ≠ landingName k := by
  rintro rfl
  exact h (by simp [landingName])

/-- A search in nested loops, with a function that has a variable called like a support object. -/
def labeledSearch : Program :=
  ⟨[.funcStmt ⟨some "scan", ["table"], [.varStmt .var [⟨"RegExp", none⟩]]⟩,
    .labeled "rows" (.whileStmt (.ident "more") (.labeled "cells" (.whileStmt (.ident "some")
      (.block [.continueStmt none .nowhere, .continueStmt (some "rows") .nowhere]))))]⟩

theorem labeledSearch_captures :
    Internal "RegExp" ∧ labeledSearch.Captures "RegExp" ∧
    Internal "table" ∧ ¬ labeledSearch.Captures "table" ∧
    Stmt.LabelsApartList [] labeledSearch.body ∧
    Lua.Stat.ApartBlock [] labeledSearch.emit.chunk.body ∧
    Lua.spell "rows__After" = afterLabel "rows" ∧
    ¬ Lua.Stat.ApartBlock [] (Stmt.emitList [Stmt.nestedLoops "rows" "rows__After"] {}).1 := by
  obtain ⟨hcaptures, -, hapart, -, -, hmeet, hafter, -⟩ := labeledSearch.captured_exactly
  have hregexp : Internal "RegExp" := .own (by decide)
  have htable : Internal "table" := .own (by decide)
  have hlabels : Stmt.LabelsApartList [] labeledSearch.body := by
    have hrows : IsNew [] "rows" := ⟨ne_landingName_of_head (by decide), by simp⟩
    have hcells : IsNew ["rows"] "cells" := ⟨ne_landingName_of_head (by decide), by decide⟩
    exact ⟨trivial, ⟨hrows, hcells, trivial, trivial, trivial⟩, trivial⟩
  have hrows : Lua.spell "rows__After" = afterLabel "rows" := hafter "rows" (by decide)
  have houter : afterLabel "rows" ∈ labelTexts "rows" := by simp [labelTexts]
  have hinner : afterLabel "rows" ∈ labelTexts "rows__After" := by simp [labelTexts, hrows]
  refine ⟨hregexp, (hcaptures _ hregexp).mpr ⟨by decide, by decide⟩, htable, fun h => ?_, hlabels,
    hapart hlabels, hrows, hmeet _ _ _ houter hinner {}⟩
  exact ((hcaptures _ htable).mp h).2 (by decide)

/-- Variables called like a support object and like a made-up local. -/
def shadowing : Program :=
  ⟨[.varStmt .var [⟨"RegExp", some .this⟩, ⟨"__tmp1", some .this⟩]]⟩

/-- Bindings have the names of a support object and of a made-up local, and labels meet the label
behind another statement and the landing of a loop. -/
theorem names_meet :
    Internal "RegExp" ∧ shadowing.Captures "RegExp" ∧
    Internal "__tmp1" ∧ shadowing.Captures "__tmp1" ∧
    ¬ Lua.Stat.ApartBlock [] (Stmt.emitList [Stmt.nestedLoops "a" "a__After"] {}).1 ∧
    ¬ Lua.Stat.ApartBlock [] (Stmt.emitList [Stmt.landingLoop "__Continue1" .nowhere] {}).1 := by
  have htmp : "__tmp1" = "__tmp" ++ toString 1 := by decide
  have houter : "a__After" ∈ labelTexts "a" := by decide
  have hinner : "a__After" ∈ labelTexts "a__After" := by decide
  refine ⟨.own (by decide), ⟨"RegExp", by decide, by decide⟩, ?_, ⟨"__tmp1", by decide, by decide⟩,
    Stmt.nestedLoops_meet houter hinner {}, ?_⟩
  · rw [htmp]
    exact .numbered (by decide) 1
  · exact Stmt.landingLoop_meet .nowhere {}

end EcmaLua
