import Mathlib.Data.List.Forall2
import Mathlib.Tactic.Common

/-!
# Machines that do not look into expressions

A machine records what it evaluates, and is told beforehand what the conditions are worth. Two
machines agree when the records correspond, group by group, and the same answers are left; actions
of two machines match when they keep machines in agreement and have related results.
-/

namespace EcmaLua.Execution

variable {ε ε' α α' β β' : Type}

structure Machine (ε : Type) where
  /-- what was evaluated, the latest last -/
  events : List ε
  /-- the truth values of the conditions to come -/
  answers : Nat → Bool

abbrev Run (ε : Type) := StateM (Machine ε)

/-- Evaluate for the effect alone. -/
def perform (events : List ε) : Run ε Unit := fun m =>
  ((), { m with events := m.events ++ events })

theorem perform_nil : perform ([] : List ε) = pure () := by
  funext m
  change ((), { m with events := m.events ++ [] }) = _
  rw [List.append_nil]
  rfl

theorem perform_append (a b : List ε) : perform (a ++ b) = (do
    perform a
    perform b) := by
  funext m
  change ((), { m with events := m.events ++ (a ++ b) }) = _
  rw [← List.append_assoc]
  rfl

/-- Evaluate a condition: the next answer is its value. -/
def ask (event : ε) : Run ε Bool := fun m =>
  (m.answers 0, ⟨m.events ++ [event], fun n => m.answers (n + 1)⟩)

/-- The second record has a group of events for each event of the first. -/
def Rendered (R : ε → List ε' → Prop) (events : List ε) (events' : List ε') : Prop :=
  ∃ groups, events' = groups.flatten ∧ List.Forall₂ R events groups

theorem Rendered.append {R : ε → List ε' → Prop} {a b : List ε} {a' b' : List ε'}
    (ha : Rendered R a a') (hb : Rendered R b b') : Rendered R (a ++ b) (a' ++ b') := by
  obtain ⟨groups, rfl, hgroups⟩ := ha
  obtain ⟨groups', rfl, hgroups'⟩ := hb
  exact ⟨groups ++ groups', List.flatten_append.symm, List.rel_append hgroups hgroups'⟩

theorem Rendered.single {R : ε → List ε' → Prop} {event : ε} {group : List ε'}
    (h : R event group) : Rendered R [event] group :=
  ⟨[group], by simp, .cons h .nil⟩

structure Agree (R : ε → List ε' → Prop) (m : Machine ε) (m' : Machine ε') : Prop where
  events : Rendered R m.events m'.events
  answers : m.answers = m'.answers

/-- From machines in agreement, the actions go to machines in agreement, with related results. -/
def Matches (R : ε → List ε' → Prop) (S : α → α' → Prop) (x : Run ε α) (y : Run ε' α') : Prop :=
  ∀ m m', Agree R m m' → S (x m).1 (y m').1 ∧ Agree R (x m).2 (y m').2

namespace Matches

variable {R : ε → List ε' → Prop} {S S' : α → α' → Prop} {T : β → β' → Prop}

theorem pure {a : α} {a' : α'} (h : S a a') :
    Matches R S (Pure.pure a : Run ε α) (Pure.pure a' : Run ε' α') :=
  fun _ _ hm => ⟨h, hm⟩

theorem bind {x : Run ε α} {y : Run ε' α'} {f : α → Run ε β} {g : α' → Run ε' β'}
    (h : Matches R S x y) (hf : ∀ a a', S a a' → Matches R T (f a) (g a')) :
    Matches R T (x >>= f) (y >>= g) := by
  intro m m' hm
  obtain ⟨ha, hm'⟩ := h m m' hm
  exact hf _ _ ha _ _ hm'

theorem mono {x : Run ε α} {y : Run ε' α'} (h : Matches R S x y)
    (hs : ∀ a a', S a a' → S' a a') : Matches R S' x y :=
  fun m m' hm => ⟨hs _ _ (h m m' hm).1, (h m m' hm).2⟩

/-- The results of the first action come from the function. -/
theorem image {x : Run ε β} {f : β → α} {y : Run ε' α'}
    (h : Matches R S (x >>= fun b => Pure.pure (f b)) y) :
    Matches R (fun a a' => S a a' ∧ ∃ b, a = f b) (x >>= fun b => Pure.pure (f b)) y :=
  fun m m' hm => ⟨⟨(h m m' hm).1, _, rfl⟩, (h m m' hm).2⟩

end Matches

theorem matches_perform {R : ε → List ε' → Prop} {event : ε} {group : List ε'}
    (h : R event group) : Matches R Eq (perform [event]) (perform group) :=
  fun _ _ hm => ⟨rfl, hm.events.append (.single h), hm.answers⟩

theorem matches_ask {R : ε → List ε' → Prop} {event : ε} {event' : ε'} (h : R event [event']) :
    Matches R Eq (ask event) (ask event') := by
  intro m m' hm
  refine ⟨?_, hm.events.append (.single h), ?_⟩
  · simp only [ask, hm.answers]
  · simp only [ask, hm.answers]

end EcmaLua.Execution
