import Mathlib.Algebra.Order.Field.Power
import Mathlib.Data.Nat.Cast.Order.Field
import Mathlib.Data.Rat.Floor
import Mathlib.Tactic.FieldSimp
import Mathlib.Tactic.Linarith
import Mathlib.Tactic.NormNum
import Mathlib.Tactic.Positivity
import EcmaLua.Number.Decimal

/-!
# The values of numbers

Fractions, decimals and finite binary64 numbers as rational numbers. Comparing fractions by cross
multiplication and rounding them down is what it is for their values.
-/

namespace EcmaLua

namespace Ratio

/-- The rational number that a fraction stands for. -/
def value (r : Ratio) : ℚ := r.num / r.den

theorem value_ofPower (n : Nat) {base : Nat} (hbase : 0 < base) (e : Int) :
    (ofPower n base e).value = n * (base : ℚ) ^ e := by
  have hne : (base : ℚ) ≠ 0 := by exact_mod_cast hbase.ne'
  cases e with
  | ofNat k => simp [ofPower, value]
  | negSucc k => simp [ofPower, value, zpow_negSucc, div_eq_mul_inv]

theorem den_ofPower_pos (n : Nat) {base : Nat} (hbase : 0 < base) (e : Int) :
    0 < (ofPower n base e).den := by
  cases e with
  | ofNat k => exact Nat.one_pos
  | negSucc k => exact Nat.pow_pos hbase

variable {a b : Ratio}

theorem value_mul (a b : Ratio) : (a.mul b).value = a.value * b.value := by
  simp only [mul, value, Nat.cast_mul]
  exact (div_mul_div_comm _ _ _ _).symm

theorem den_mul_pos (ha : 0 < a.den) (hb : 0 < b.den) : 0 < (a.mul b).den := Nat.mul_pos ha hb

theorem le_iff (ha : 0 < a.den) (hb : 0 < b.den) : a.le b = true ↔ a.value ≤ b.value := by
  have ha' : (0 : ℚ) < a.den := by exact_mod_cast ha
  have hb' : (0 : ℚ) < b.den := by exact_mod_cast hb
  rw [le, decide_eq_true_iff, value, value, div_le_div_iff₀ ha' hb']
  exact_mod_cast Iff.rfl

theorem lt_iff (ha : 0 < a.den) (hb : 0 < b.den) : a.lt b = true ↔ a.value < b.value := by
  have ha' : (0 : ℚ) < a.den := by exact_mod_cast ha
  have hb' : (0 : ℚ) < b.den := by exact_mod_cast hb
  rw [lt, decide_eq_true_iff, value, value, div_lt_div_iff₀ ha' hb']
  exact_mod_cast Iff.rfl

theorem floor_le_value (a : Ratio) : (a.floor : ℚ) ≤ a.value := Nat.cast_div_le

theorem value_lt_floor_add_one (ha : 0 < a.den) : a.value < a.floor + 1 := by
  have ha' : (0 : ℚ) < a.den := by exact_mod_cast ha
  rw [value, div_lt_iff₀ ha']
  have h := Nat.lt_mul_div_succ a.num ha
  rw [Nat.mul_comm] at h
  exact_mod_cast h

end Ratio

namespace Decimal

/-- The rational number that a decimal stands for. -/
def value (d : Decimal) : ℚ := d.coefficient * (10 : ℚ) ^ d.exponent

theorem value_toRatio (d : Decimal) : d.toRatio.value = d.value :=
  Ratio.value_ofPower d.coefficient (by decide) d.exponent

theorem den_toRatio_pos (d : Decimal) : 0 < d.toRatio.den :=
  Ratio.den_ofPower_pos d.coefficient (by decide) d.exponent

/-- Moving trailing zeros into the exponent does not change the value. -/
theorem value_strip (fuel : Nat) (d : Decimal) : (d.strip fuel).value = d.value := by
  induction fuel generalizing d with
  | zero => rfl
  | succ fuel ih =>
    rw [strip]
    split
    · next hzero =>
        rw [ih]
        have hten : d.coefficient = 10 * (d.coefficient / 10) := by omega
        have hcast : (d.coefficient : ℚ) = 10 * (d.coefficient / 10 : ℕ) := by exact_mod_cast hten
        rw [value, value, hcast, zpow_add₀ (by norm_num), zpow_one]
        ring
    · rfl

theorem exponent_le_strip (fuel : Nat) (d : Decimal) : d.exponent ≤ (d.strip fuel).exponent := by
  induction fuel generalizing d with
  | zero => exact Int.le_refl _
  | succ fuel ih =>
    rw [strip]
    split
    · have hle := ih ⟨d.coefficient / 10, d.exponent + 1⟩
      dsimp only at hle
      omega
    · exact Int.le_refl _

/-- With enough steps no trailing zero is left. -/
theorem strip_coefficient {fuel : Nat} {d : Decimal} (hpos : 0 < d.coefficient)
    (hlt : d.coefficient < 10 ^ fuel) : (d.strip fuel).coefficient % 10 ≠ 0 := by
  induction fuel generalizing d with
  | zero => omega
  | succ fuel ih =>
    rw [strip]
    split
    · next hzero =>
        refine ih (d := ⟨d.coefficient / 10, d.exponent + 1⟩) ?_ ?_
        · show 0 < d.coefficient / 10
          omega
        · show d.coefficient / 10 < 10 ^ fuel
          rw [pow_succ] at hlt
          omega
    · next hzero => exact hzero

theorem value_pos {d : Decimal} (h : 0 < d.coefficient) : 0 < d.value := by
  have hcast : (0 : ℚ) < d.coefficient := by exact_mod_cast h
  exact mul_pos hcast (zpow_pos (by norm_num) _)

end Decimal

namespace Double

/-- Neither infinite nor NaN. -/
def isFinite (x : Double) : Bool := !x.isNaN && !x.isInfinite

/-- The rational number that a finite number stands for; zero for both zeros. -/
def value (x : Double) : ℚ :=
  (if x.negative then -1 else 1) * (x.significand * (2 : ℚ) ^ x.scale)

/-- Equality of numbers: NaN equals nothing, and the two zeros are equal. -/
def Equals (x y : Double) : Prop :=
  x.isNaN = false ∧ y.isNaN = false ∧ (x = y ∨ x.isZero = true ∧ y.isZero = true)

theorem isZero_iff (x : Double) : x.isZero = true ↔ x.significand = 0 := by
  by_cases hb : x.biased = 0 <;> simp [isZero, significand, hb]

theorem fraction_lt (x : Double) : x.fraction < 2 ^ 52 := Nat.mod_lt _ (by decide)

theorem significand_lt (x : Double) : x.significand < 2 ^ 53 := by
  have h := x.fraction_lt
  unfold significand
  rw [Nat.pow_eq]
  split <;> omega

/-- The fields of a number make it up. -/
theorem eq_of_fields {x y : Double} (hn : x.negative = y.negative) (hb : x.biased = y.biased)
    (hf : x.fraction = y.fraction) : x = y := by
  have hbits (z : Double) : z.bits.toNat =
      (if z.negative then 2 ^ 63 else 0) + z.biased * 2 ^ 52 + z.fraction := by
    have hlt := z.bits.toNat_lt
    by_cases hz : z.negative = true
    · have hsign : z.bits.toNat / Nat.pow 2 63 = 1 := by simpa [negative] using hz
      rw [if_pos hz, biased, fraction]
      simp only [Nat.pow_eq] at hsign ⊢
      omega
    · have hsign : z.bits.toNat / Nat.pow 2 63 ≠ 1 := by simpa [negative] using hz
      rw [if_neg hz, biased, fraction]
      simp only [Nat.pow_eq] at hsign ⊢
      omega
  have h : x.bits.toNat = y.bits.toNat := by rw [hbits x, hbits y, hn, hb, hf]
  cases x
  cases y
  exact congrArg Double.mk (UInt64.toNat_inj.mp h)

end Double

end EcmaLua
