import Mathlib.Tactic.Common
import EcmaLua.Emission.Control

/-!
# The constructs around a place

What the constructs around a place offer to jumps: the labels that can be reached, whether there
is something to break out of, and the landing of the nearest loop. A bare `continue` sets the
landing of the nearest loop if it has none, and no other jump changes the constructs.
-/

namespace EcmaLua.Emission

/-- The landing with a number. -/
def landingName (k : Nat) : String := "__Continue" ++ toString k

namespace Control

/-- The labels that a jump can reach. -/
def targets : Control → List String
  | [] | .barrier :: _ => []
  | .loop labels landing :: rest =>
    labels.map afterLabel ++ labels.map Lua.spell ++ landing.toList ++ targets rest
  | .switch :: rest => targets rest
  | .labeled label :: rest => afterLabel label :: targets rest

/-- Whether a bare `break` has something to leave. -/
def leaves : Control → Bool
  | [] | .barrier :: _ => false
  | .loop .. :: _ | .switch :: _ => true
  | .labeled _ :: rest => leaves rest

/-- The landing of the nearest loop, if there is a loop. -/
def landing : Control → Option (Option String)
  | [] | .barrier :: _ => none
  | .loop _ landing :: _ => some landing
  | .switch :: rest | .labeled _ :: rest => landing rest

/-- Set the landing of the nearest loop. -/
def land (name : String) : Control → Control
  | .loop labels _ :: rest => .loop labels (some name) :: rest
  | .switch :: rest => .switch :: land name rest
  | .labeled label :: rest => .labeled label :: land name rest
  | control => control

theorem leaves_land (name : String) (control : Control) :
    (control.land name).leaves = control.leaves := by
  induction control with
  | nil => rfl
  | cons enclosure rest ih =>
    cases enclosure with
    | loop labels landing => rfl
    | switch => rfl
    | labeled label => exact ih
    | barrier => rfl

theorem landing_land {control : Control} (h : control.landing ≠ none) (name : String) :
    (control.land name).landing = some (some name) := by
  induction control with
  | nil => exact absurd rfl h
  | cons enclosure rest ih =>
    cases enclosure with
    | loop labels landing => rfl
    | switch => exact ih h
    | labeled label => exact ih h
    | barrier => exact absurd rfl h

/-- Setting a landing that was not set takes no label away. -/
theorem targets_land {control : Control} (h : control.landing = some none) (name : String) :
    ∀ x ∈ control.targets, x ∈ (control.land name).targets := by
  induction control with
  | nil => simp [targets]
  | cons enclosure rest ih =>
    cases enclosure with
    | loop labels landing =>
      obtain rfl : landing = none := by simpa [Control.landing] using h
      intro x hx
      simp only [targets, land, Option.toList_none, List.append_nil, List.mem_append] at hx ⊢
      exact hx.imp_left Or.inl
    | switch => exact ih h
    | labeled label =>
      intro x hx
      rcases List.mem_cons.mp hx with rfl | hx
      · exact List.mem_cons_self
      · exact List.mem_cons_of_mem _ (ih h x hx)
    | barrier => simp [targets]

/-- A `break` goes to a label that can be reached, or leaves a loop or `switch`. -/
theorem breakJump_cases (label : Option String) (control : Control) :
    (control.breakJump label = .leave ∧ control.leaves = true) ∨
      (∃ l, label = some l ∧ control.breakJump label = .goTo (afterLabel l) ∧
        afterLabel l ∈ control.targets) ∨
      control.breakJump label = .blocked ∨ control.breakJump label = .missing := by
  induction control with
  | nil => simp [breakJump]
  | cons enclosure rest ih =>
    cases enclosure with
    | barrier => simp [breakJump]
    | switch =>
      cases label with
      | none => exact Or.inl ⟨rfl, rfl⟩
      | some wanted =>
        refine Or.imp ?_ id ih
        exact fun h => ⟨h.1, rfl⟩
    | loop labels landing =>
      cases label with
      | none => exact Or.inl ⟨rfl, rfl⟩
      | some wanted =>
        by_cases hw : wanted ∈ labels
        · refine Or.inr (Or.inl ⟨wanted, rfl, by simp [breakJump, hw], ?_⟩)
          simp only [targets, List.mem_append]
          exact Or.inl (Or.inl (Or.inl (List.mem_map_of_mem hw)))
        · have hj : breakJump (some wanted) (.loop labels landing :: rest) =
              breakJump (some wanted) rest := by simp [breakJump, hw]
          rw [hj]
          rcases ih with ih | ⟨l, hl, hj, ht⟩ | ih
          · exact Or.inl ⟨ih.1, rfl⟩
          · exact Or.inr (Or.inl ⟨l, hl, hj, List.mem_append_right _ ht⟩)
          · exact Or.inr (Or.inr ih)
    | labeled name =>
      by_cases hw : label = some name
      · refine Or.inr (Or.inl ⟨name, hw, by simp [breakJump, hw], List.mem_cons_self⟩)
      · have hj : breakJump label (.labeled name :: rest) = breakJump label rest := by
          simp [breakJump, hw]
        rw [hj]
        rcases ih with ih | ⟨l, hl, hj, ht⟩ | ih
        · exact Or.inl ih
        · exact Or.inr (Or.inl ⟨l, hl, hj, List.mem_cons_of_mem _ ht⟩)
        · exact Or.inr (Or.inr ih)

theorem mem_targets_of_landing {control : Control} {name : String}
    (h : control.landing = some (some name)) : name ∈ control.targets := by
  induction control with
  | nil => exact absurd h (by simp [landing])
  | cons enclosure rest ih =>
    cases enclosure with
    | loop labels l =>
      obtain rfl : l = some name := by simpa [landing] using h
      simp [targets]
    | switch => exact ih h
    | labeled label => exact List.mem_cons_of_mem _ (ih h)
    | barrier => exact absurd h (by simp [landing])

/-- A bare `continue` in a loop that has its landing. -/
theorem continueJump_landed {control : Control} {name : String}
    (h : control.landing = some (some name)) (supply : Supply) :
    control.continueJump none supply = (.goTo name, control, supply) := by
  induction control with
  | nil => exact absurd h (by simp [landing])
  | cons enclosure rest ih =>
    cases enclosure with
    | loop labels l =>
      obtain rfl : l = some name := by simpa [landing] using h
      rfl
    | switch => simp only [continueJump, ih h]
    | labeled label => simp only [continueJump, ih h]
    | barrier => exact absurd h (by simp [landing])

/-- The first bare `continue` in a loop. -/
theorem continueJump_unlanded {control : Control} (h : control.landing = some none)
    (supply : Supply) :
    control.continueJump none supply =
      (.goTo (landingName (supply.last + 1)), control.land (landingName (supply.last + 1)),
        ⟨supply.last + 1⟩) := by
  induction control with
  | nil => exact absurd h (by simp [landing])
  | cons enclosure rest ih =>
    cases enclosure with
    | loop labels l =>
      obtain rfl : l = none := by simpa [landing] using h
      rfl
    | switch => simp only [continueJump, land, ih h]
    | labeled label => simp only [continueJump, land, ih h]
    | barrier => exact absurd h (by simp [landing])

/-- A bare `continue` outside of loops. -/
theorem continueJump_outside {control : Control} (h : control.landing = none)
    (supply : Supply) :
    ∃ jump, (jump = .blocked ∨ jump = .missing) ∧
      control.continueJump none supply = (jump, control, supply) := by
  induction control with
  | nil => exact ⟨.missing, Or.inr rfl, rfl⟩
  | cons enclosure rest ih =>
    cases enclosure with
    | loop labels l => exact absurd h (by simp [landing])
    | switch =>
      obtain ⟨jump, hj, heq⟩ := ih h
      exact ⟨jump, hj, by simp only [continueJump, heq]⟩
    | labeled label =>
      obtain ⟨jump, hj, heq⟩ := ih h
      exact ⟨jump, hj, by simp only [continueJump, heq]⟩
    | barrier => exact ⟨.blocked, Or.inl rfl, rfl⟩

/-- A `continue` with a label goes to the label inside its loop, if there is one, and changes
nothing. -/
theorem continueJump_labeled (label : String) (supply : Supply) (control : Control) :
    ∃ jump, control.continueJump (some label) supply = (jump, control, supply) ∧
      (jump = .blocked ∨ jump = .missing ∨
        jump = .goTo (Lua.spell label) ∧ Lua.spell label ∈ control.targets) := by
  induction control with
  | nil => exact ⟨.missing, rfl, Or.inr (Or.inl rfl)⟩
  | cons enclosure rest ih =>
    obtain ⟨jump, heq, hj⟩ := ih
    have hmore (front : List String) : jump = .blocked ∨ jump = .missing ∨
        jump = .goTo (Lua.spell label) ∧ Lua.spell label ∈ front ++ targets rest := by
      rcases hj with hj | hj | ⟨hj, hm⟩
      · exact Or.inl hj
      · exact Or.inr (Or.inl hj)
      · exact Or.inr (Or.inr ⟨hj, List.mem_append_right _ hm⟩)
    cases enclosure with
    | loop labels l =>
      by_cases hw : label ∈ labels
      · refine ⟨.goTo (Lua.spell label), by simp [continueJump, hw], Or.inr (Or.inr ⟨rfl, ?_⟩)⟩
        have hs : Lua.spell label ∈ labels.map Lua.spell := List.mem_map_of_mem hw
        simp only [targets, List.mem_append]
        exact Or.inl (Or.inl (Or.inr hs))
      · exact ⟨jump, by simp [continueJump, hw, heq], hmore _⟩
    | switch => exact ⟨jump, by simp [continueJump, heq], hj⟩
    | labeled name => exact ⟨jump, by simp [continueJump, heq], hmore [afterLabel name]⟩
    | barrier => exact ⟨.blocked, rfl, Or.inl rfl⟩

end Control

end EcmaLua.Emission
