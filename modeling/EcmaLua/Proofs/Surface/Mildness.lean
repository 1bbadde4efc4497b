import EcmaLua.Proofs.Surface.Nodes

/-!
# Scripts have mild programs

A finding is mild when it leaves the output usable and its cause is one that a script can have. A
function declaration has its name in the script already, and a `try` statement has one `catch`
clause at most, so the programs of scripts can have none but mild findings reported. What is found
on the way is mild as well.
-/

namespace EcmaLua

/-- No error, and not about a shape of programs that scripts do not have. -/
def Finding.IsMild (finding : Finding) : Prop :=
  finding.severity ≠ .error ∧ finding.code ≠ .internalError
    ∧ finding.code ≠ .multipleCatchClauses

theorem Finding.isMild_unsupported (node : Unsupported) : (Finding.unsupported node).IsMild := by
  obtain ⟨kind, category, span⟩ := node
  cases category <;> exact ⟨nofun, nofun, nofun⟩

namespace Surface

/-- A node that comes from a script can have none but mild findings reported. -/
theorem Lowered.isMild {numbering : Numbering} {P : Part → Prop} {n : Node}
    (h : Lowered numbering P n) : n.Admits Finding.IsMild := by
  cases n with
  | assign | update | initializer | forIn => trivial
  | function f => exact fun hnone => absurd hnone h
  | attempt clauses span => exact fun hmany => absurd hmany (Nat.not_lt.mpr h.1)
  | breaks span => exact ⟨⟨nofun, nofun, nofun⟩, ⟨nofun, nofun, nofun⟩⟩
  | continues span => exact ⟨⟨nofun, nofun, nofun⟩, ⟨nofun, nofun, nofun⟩⟩
  | withScope span => exact fun _ => ⟨nofun, nofun, nofun⟩
  | unsupported node => exact Finding.isMild_unsupported node

/-- The program of any script can have none but mild findings reported, and none but mild ones come
up while it is made. -/
theorem Script.mild_toProgram (numbering : Numbering) (script : Script) :
    (script.toProgram numbering).1.Admits Finding.IsMild
      ∧ ∀ finding ∈ (script.toProgram numbering).2, finding.IsMild := by
  obtain ⟨hnodes, hfindings⟩ := script.lowered_toProgram numbering (P := fun _ => True) (by simp)
  refine ⟨fun n hn => (hnodes n hn).isMild, fun finding hf => ?_⟩
  obtain ⟨span, -, rfl⟩ := hfindings finding hf
  exact ⟨nofun, nofun, nofun⟩

end Surface

end EcmaLua
