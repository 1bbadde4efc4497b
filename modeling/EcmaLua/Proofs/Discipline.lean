import Mathlib.Data.List.Forall2
import EcmaLua.Proofs.Emission.Restoring
import EcmaLua.Proofs.Emission.Settled
import EcmaLua.Proofs.Lua.Writer

/-!
# The discipline of emission

An emitter makes code and writes it, with the open frames and constructs on the one hand and the
output and its indent on the other. What it makes of an expression leaves all of it in place; what
it makes of a statement appends to the output, and otherwise leaves no more behind than locals in
the nearest lexical frame and a landing of the nearest loop.
-/

namespace EcmaLua

open Emission

/-- The state in which code is made, and the writer of its text. -/
structure Emitter where
  state : State := {}
  writer : Lua.Writer := {}

namespace Emitter

variable (settings : Settings)

/-- Make an expression, and tell its text. -/
def tell (act : Emit Lua.Expr) (em : Emitter) : Option (String × Emitter) := do
  let (e, state) := act em.state
  let (text, writer) ← e.write settings em.writer
  pure (text, ⟨state, writer⟩)

/-- Make statements, and write them. -/
def write (act : Emit (List Lua.Stat)) (em : Emitter) : Option Emitter := do
  let (code, state) := act em.state
  let ((), writer) ← Lua.Stat.writeList settings code em.writer
  pure ⟨state, writer⟩

theorem tell_eq (act : Emit Lua.Expr) (em : Emitter) :
    tell settings act em =
      some ((act em.state).1.render settings em.writer.indent, ⟨(act em.state).2, em.writer⟩) := by
  have hwrite := Lua.Expr.tells_write settings (act em.state).1 em.writer
  change ((act em.state).1.write settings em.writer).bind _ = _
  rw [hwrite]
  rfl

theorem write_eq (act : Emit (List Lua.Stat)) (em : Emitter) :
    write settings act em =
      some ⟨(act em.state).2, { em.writer with
        out := em.writer.out ++
          Lua.Stat.renderList settings em.writer.indent (act em.state).1 }⟩ := by
  have hwrite := Lua.Stat.prints_writeList settings (act em.state).1 em.writer
  change (Lua.Stat.writeList settings (act em.state).1 em.writer).bind _ = _
  rw [hwrite]
  rfl

end Emitter

namespace Emission

/-- A construct stays as it is, except that a loop without a landing may get one. -/
inductive Enclosure.Becomes : Enclosure → Enclosure → Prop
  | same (e : Enclosure) : Becomes e e
  | landed (labels : List String) (name : String) :
      Becomes (.loop labels none) (.loop labels (some name))

theorem Control.becomes_refl (control : Control) :
    List.Forall₂ Enclosure.Becomes control control :=
  List.forall₂_same.mpr fun e _ => .same e

theorem Control.becomes_land {control : Control} (h : control.landing = some none)
    (name : String) : List.Forall₂ Enclosure.Becomes control (control.land name) := by
  induction control with
  | nil => exact .nil
  | cons e rest ih =>
    cases e with
    | loop labels landing =>
      obtain rfl : landing = none := Option.some.inj h
      exact .cons (.landed labels name) (becomes_refl rest)
    | switch => exact .cons (.same _) (ih h)
    | labeled label => exact .cons (.same _) (ih h)
    | barrier => exact absurd h nofun

theorem Touches.becomes {n : Nat} {s s' : State} (h : Touches n s s') :
    List.Forall₂ Enclosure.Becomes s.control s'.control := by
  rcases h with ⟨heq, -⟩ | ⟨hl, -, k, -, -, heq⟩
  · rw [heq]
    exact Control.becomes_refl _
  · rw [heq]
    exact Control.becomes_land hl _

/-- The uses of an expression that have a value. -/
inductive Use where
  | value
  | unguarded
  | target
  | base
  | invoke
  | delete

/-- The code of an expression in a use; a call has arguments. -/
def Rendition.inUse (r : Rendition) (args : Emit (List Lua.Expr)) : Use → Emit Lua.Expr
  | .value => r.value
  | .unguarded => r.unguarded
  | .target => r.target
  | .base => r.base
  | .invoke => r.invoke args
  | .delete => r.delete

end Emission

/-- No use of an expression does anything to the frames and the constructs. -/
theorem Expr.still_inUse (e : Expr) (args : List Expr) (use : Use) (s : State) :
    (e.emit.inUse (Expr.emitValues args) use s).2.control = s.control ∧
      Still s (e.emit.inUse (Expr.emitValues args) use s).2 := by
  have hr := e.restoring_emit
  have hc := e.calm_all
  cases use with
  | value => exact ⟨(hc.value s).1.1, hr.value s⟩
  | unguarded => exact ⟨(hc.unguarded s).1.1, hr.unguarded s⟩
  | target => exact ⟨(hc.target (.inl trivial) s).1.1, hr.target s⟩
  | base => exact ⟨(hc.base s).1.1, hr.base s⟩
  | delete => exact ⟨(hc.delete s).1.1, hr.delete s⟩
  | invoke =>
    have hargs := covers_all.law.values fun e (_ : e ∈ args) => e.calm_all
    exact ⟨(hc.invoke _ hargs s).1.1, hr.invoke _ (Expr.restores_emitValues args) s⟩

/-- A program closes all that it opens. -/
theorem Program.kept_emission (p : Program) :
    Kept {} (p.emission {}).2 ∧ (p.emission {}).2.control = [] := by
  have hcode : Keeps (do
      let locals ← declareLocals (Declarations.ofBody p.body).funcs
      pure ([.marker "BEGIN"] ++ locals ++ (← Stmt.emitList p.body) ++ [.marker "END"])) :=
    (keeps_declareLocals _).bind fun _ => (Stmt.keeps_emitList p.body).bind fun _ => .pure _
  have hkeeps : Keeps p.emission :=
    (hcode.inFrame_lexical (kind_rootFrame _)).keeps.inFrame_object rfl
  let names := Declarations.ofBody p.body
  let start : State := { scope := [rootFrame names, .object "program" Lua.globalObjects] }
  have hstart : (declareLocals names.funcs start).2.control = [] :=
    (gives_declareLocals covers_all names.funcs start).1.1
  have htouches := (Stmt.codesList_all p.body
    (declareLocals names.funcs start).2).touches
  exact ⟨hkeeps {}, htouches.outermost hstart⟩

/-- What an emitter makes of an expression, in any of its uses, leaves the emitter as it was, up to
numbers, findings and captured names. What it makes of a statement is appended to the output; the
indent is restored, the open frames are the same up to locals in the nearest lexical one, and the
open constructs up to a landing that was not set. No frame is closed that is not open, the indent is
never taken below zero, and a program ends with everything closed. -/
theorem emission_discipline (settings : Settings) :
    (∀ (e : Expr) (args : List Expr) (use : Use) (em : Emitter), ∃ text em',
      em.tell settings (e.emit.inUse (Expr.emitValues args) use) = some (text, em') ∧
        em'.writer = em.writer ∧ em'.state.control = em.state.control ∧
        Still em.state em'.state) ∧
    (∀ (st : Stmt) (place : Place) (em : Emitter), ∃ em',
      em.write settings (st.emit place) = some em' ∧
        em'.writer.indent = em.writer.indent ∧
        (∃ text, em'.writer.out = em.writer.out ++ text) ∧
        List.Forall₂ Enclosure.Becomes em.state.control em'.state.control ∧
        Kept em.state em'.state) ∧
    ∀ p : Program, ∃ em', Emitter.write settings p.emission {} = some em' ∧
      em'.state.scope = [] ∧ em'.state.control = [] ∧ em'.state.underflow = false ∧
      em'.writer.indent = 0 ∧
      Lua.withNewlines settings.newline em'.writer.out = p.emit.chunk.render settings := by
  refine ⟨fun e args use em => ?_, fun st place em => ?_, fun p => ?_⟩
  · obtain ⟨hcontrol, hstill⟩ := Expr.still_inUse e args use em.state
    exact ⟨_, _, Emitter.tell_eq settings _ em, rfl, hcontrol, hstill⟩
  · have htouches := (st.codes_all place em.state).touches
    exact ⟨_, Emitter.write_eq settings _ em, rfl, ⟨_, rfl⟩, htouches.becomes,
      Stmt.keeps_emit place st em.state⟩
  · obtain ⟨hkept, hcontrol⟩ := p.kept_emission
    refine ⟨_, Emitter.write_eq settings _ {}, hkept.scope.of_nil, hcontrol, hkept.underflow, rfl,
      ?_⟩
    rw [String.empty_append]
    rfl

end EcmaLua
