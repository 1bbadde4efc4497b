/-!
# Nonnegative fractions

Unreduced fractions of natural numbers, compared by cross multiplication.
-/

namespace EcmaLua

/-- The fraction `num / den`; denominators are positive wherever one is built. -/
structure Ratio where
  num : Nat
  den : Nat
deriving Repr

namespace Ratio

/-- The ratio `n · base ^ e`. -/
def ofPower (n base : Nat) : Int → Ratio
  | .ofNat k => ⟨n * base.pow k, 1⟩
  | .negSucc k => ⟨n, base.pow (k + 1)⟩

def le (a b : Ratio) : Bool := a.num * b.den ≤ b.num * a.den

def lt (a b : Ratio) : Bool := a.num * b.den < b.num * a.den

def mul (a b : Ratio) : Ratio := ⟨a.num * b.num, a.den * b.den⟩

def floor (a : Ratio) : Nat := a.num / a.den

/-- The nearest natural number; a half goes to the even neighbour. -/
def roundEven (a : Ratio) : Nat :=
  let below := a.num / a.den
  let rest := 2 * (a.num % a.den)
  if rest < a.den || (rest == a.den && below % 2 == 0) then below else below + 1

end Ratio

end EcmaLua
