import EcmaLua.Number.Double
import EcmaLua.Number.Ratio

/-!
# Decimal forms of binary64 numbers

`Double.ofDecimal` takes a decimal to the nearest number, a half going to the even
significand. `Double.shortest` goes the other way: of the decimals that read back as the given
number it takes the fewest digits, and of those the nearest, the larger one on a tie.
-/

namespace EcmaLua

/-- The number `coefficient · 10 ^ exponent`. -/
structure Decimal where
  coefficient : Nat
  exponent : Int
deriving DecidableEq, Repr

namespace Decimal

def toRatio (d : Decimal) : Ratio := .ofPower d.coefficient 10 d.exponent

/-- The digits of the coefficient, most significant first. -/
def digits (d : Decimal) : List Char := Nat.toDigits 10 d.coefficient

/-- The power of ten of the leading digit. -/
def leading (d : Decimal) : Int := d.exponent + (d.digits.length : Int) - 1

/-- Move up to `fuel` trailing zeros of the coefficient into the exponent. -/
def strip : Nat → Decimal → Decimal
  | 0, d => d
  | fuel + 1, d =>
    if d.coefficient % 10 = 0 then strip fuel ⟨d.coefficient / 10, d.exponent + 1⟩ else d

end Decimal

namespace Double

/-- The binary exponent `e` with `2 ^ e ≤ v < 2 ^ (e + 1)`. -/
def binaryExponent (v : Ratio) : Int :=
  let guess : Int := (Nat.log2 v.num : Int) - (Nat.log2 v.den : Int)
  if (Ratio.ofPower 1 2 guess).le v then guess else guess - 1

/-- The number nearest to a positive fraction, a half going to the even significand. -/
def ofRatio (negative : Bool) (v : Ratio) : Double :=
  let q := max (binaryExponent v - 52) (-1074)
  let m := (v.mul (.ofPower 1 2 (-q))).roundEven
  let (m, q) := if m = Nat.pow 2 53 then (Nat.pow 2 52, q + 1) else (m, q)
  if q > 971 then infinity negative
  else if m < Nat.pow 2 52 then ofFields negative 0 m
  else ofFields negative (q + 1075).toNat (m - Nat.pow 2 52)

/-- The number nearest to a decimal. Decimals far outside the range are decided by the place of
their leading digit, so a long exponent costs nothing. -/
def ofDecimal (negative : Bool) (d : Decimal) : Double :=
  if d.coefficient = 0 then zero negative
  else if d.leading > 310 then infinity negative
  else if d.leading < -330 then zero negative
  else ofRatio negative d.toRatio

/-- The number nearest to a natural number. -/
def ofNat (n : Nat) : Double :=
  if n = 0 then zero false else if n.log2 > 1030 then infinity false else ofRatio false ⟨n, 1⟩

/-- The absolute value as a fraction. -/
def magnitude (x : Double) : Ratio := .ofPower x.significand 2 x.scale

/-- The midpoint to the next smaller number. -/
def lower (x : Double) : Ratio :=
  let gap := if x.significand = Nat.pow 2 52 ∧ 1 < x.biased then 1 else 2
  .ofPower (4 * x.significand - gap) 2 (x.scale - 2)

/-- The midpoint to the next larger number. -/
def upper (x : Double) : Ratio := .ofPower (4 * x.significand + 2) 2 (x.scale - 2)

/-- A fraction reads back as `x` when it lies between the midpoints; the midpoints themselves
go to an even significand. -/
def readsBack (x : Double) (v : Ratio) : Bool :=
  if x.significand % 2 = 0 then x.lower.le v && v.le x.upper
  else x.lower.lt v && v.lt x.upper

/-- The least `t` at or above `start` with `1 ≤ v · 10 ^ t`, within `fuel` steps. -/
def leastShift (v : Ratio) : Nat → Nat → Nat
  | 0, start => start
  | fuel + 1, start =>
    if v.den ≤ v.num * Nat.pow 10 start then start else leastShift v fuel (start + 1)

/-- The power of ten of the leading digit of a positive fraction. -/
def leadingPlace (v : Ratio) : Int :=
  if v.den ≤ v.num then (Nat.toDigits 10 v.floor).length - 1
  else -(leastShift v 400 1 : Int)

/-- The neighbours of `x` with at most `count` digits that read back as `x`, the nearer one if
both do, the larger one on a tie. -/
def candidate (x : Double) (count : Nat) : Option Decimal :=
  let v := x.magnitude
  let place := leadingPlace v - (count : Int) + 1
  let below := (v.mul (.ofPower 1 10 (-place))).floor
  let at_ (c : Nat) : Decimal := ⟨c, place⟩
  let middle : Ratio := (Decimal.mk (2 * below + 1) place).toRatio
  match x.readsBack (at_ below).toRatio, x.readsBack (at_ (below + 1)).toRatio with
  | true, true =>
    if (Ratio.mul ⟨2, 1⟩ v).lt middle then some (at_ below) else some (at_ (below + 1))
  | true, false => some (at_ below)
  | false, true => some (at_ (below + 1))
  | false, false => none

/-- The shortest decimal that reads back as the finite nonzero number `x`, without its sign.
Seventeen digits always suffice. -/
def shortest (x : Double) : Decimal :=
  let found := (List.range 17).findSome? fun k => x.candidate (k + 1)
  (found.getD ⟨x.significand, 0⟩).strip 20

end Double

end EcmaLua
