/-!
# Fresh names

Names made up for generated code: a stem and a number that is used once in a conversion.
-/

namespace EcmaLua.Emission

/-- The last number that was handed out. -/
structure Supply where
  last : Nat := 0
deriving DecidableEq, Repr

namespace Supply

/-- The next number, and the supply after it. -/
def next (s : Supply) : Nat × Supply := (s.last + 1, ⟨s.last + 1⟩)

/-- A name with the next number. -/
def fresh (stem : String) (s : Supply) : String × Supply :=
  (stem ++ toString s.next.1, s.next.2)

end Supply

end EcmaLua.Emission
