import EcmaLua.Number.PropertyKey
import EcmaLua.Proofs.Lua.Literal
import EcmaLua.Proofs.Number.Value

/-!
# Reading decimal numerals

A decimal numeral is digits, perhaps a point with a fraction, and perhaps a power of ten. A decimal
can be laid out in four ways: with zeros behind its digits, with a point among them, with zeros in
front of them, or with a power of ten. All four are read as its value.
-/

namespace EcmaLua

namespace Numeral

/-- The number that digits stand for; none unless there are digits and nothing else. -/
def natural? (cs : List Char) : Option Nat :=
  if cs ≠ [] ∧ cs.all Char.isDigit then some (Nat.ofDigitChars 10 cs 0) else none

/-- Digits, perhaps behind a sign. -/
def integer? : List Char → Option Int
  | [] => none
  | c :: cs =>
    if c = '-' then (natural? cs).map fun n : Nat => -(n : Int)
    else if c = '+' then (natural? cs).map Int.ofNat
    else (natural? (c :: cs)).map Int.ofNat

/-- The power of ten at the end of a numeral; zero if there is none. -/
def power? : List Char → Option Int
  | [] => some 0
  | c :: cs => if c = 'e' then integer? cs else none

/-- The fraction behind whole digits, without its point. -/
def fraction (cs : List Char) : List Char :=
  if cs.head? = some '.' then cs.tail.takeWhile Char.isDigit else []

/-- What comes behind the fraction. -/
def afterFraction (cs : List Char) : List Char :=
  if cs.head? = some '.' then cs.tail.dropWhile Char.isDigit else cs

/-- The value of a numeral without a sign. -/
def magnitude? (cs : List Char) : Option ℚ :=
  let whole := cs.takeWhile Char.isDigit
  let rest := cs.dropWhile Char.isDigit
  if whole = [] then none
  else
    (power? (afterFraction rest)).map fun power =>
      Nat.ofDigitChars 10 (whole ++ fraction rest) 0 *
        (10 : ℚ) ^ (power - ((fraction rest).length : Int))

/-- The value of a numeral. -/
def value? : List Char → Option ℚ
  | [] => none
  | c :: cs => if c = '-' then (magnitude? cs).map fun v => -v else magnitude? (c :: cs)

/-- A fraction with its point; nothing for no digits. -/
def pointed (digits : List Char) : List Char := if digits = [] then [] else '.' :: digits

section Reading

variable {whole digits tail : List Char} {power : Int}

theorem natural?_toDigits (n : Nat) : natural? (Nat.toDigits 10 n) = some n := by
  have hdigits : (Nat.toDigits 10 n).all Char.isDigit = true :=
    List.all_eq_true.mpr fun c hc => Nat.isDigit_of_mem_toDigits (by decide) (by decide) hc
  rw [natural?, if_pos ⟨Nat.toDigits_ne_nil, hdigits⟩, Nat.ofDigitChars_ten_toDigits]

/-- A power of ten as it is written: a minus sign if it is negative, and its digits. -/
theorem integer?_signed (n : Int) :
    integer? ((if n < 0 then ['-'] else []) ++ Nat.toDigits 10 n.natAbs) = some n := by
  split
  · next hneg =>
      rw [List.singleton_append, integer?, if_pos rfl, natural?_toDigits, Option.map_some]
      congr 1
      omega
  · next hpos =>
      obtain ⟨c, cs, hcs⟩ :=
    List.exists_cons_of_ne_nil (Nat.toDigits_ne_nil (n := n.natAbs) (b := 10))
      have hdigit : c.isDigit = true :=
        Nat.isDigit_of_mem_toDigits (by decide) (by decide) (hcs ▸ List.mem_cons_self)
      have hminus : c ≠ '-' := by rintro rfl; exact absurd hdigit (by decide)
      have hplus : c ≠ '+' := by rintro rfl; exact absurd hdigit (by decide)
      rw [List.nil_append, hcs, integer?, if_neg hminus, if_neg hplus, ← hcs, natural?_toDigits,
        Option.map_some]
      congr 1
      exact Int.natAbs_of_nonneg (Int.not_lt.mp hpos)

/-- The same with a sign in any case. -/
theorem integer?_sign (n : Int) :
    integer? ((if n < 0 then '-' else '+') :: Nat.toDigits 10 n.natAbs) = some n := by
  split
  · next hneg =>
      have hsigned := integer?_signed n
      rwa [if_pos hneg] at hsigned
  · next hpos =>
      rw [integer?, if_neg (by decide), if_pos rfl, natural?_toDigits, Option.map_some]
      congr 1
      exact Int.natAbs_of_nonneg (Int.not_lt.mp hpos)

/-- A power of ten starts with no digit and no point. -/
theorem head_of_power? (h : power? tail = some power) :
    ∀ c ∈ tail.head?, c.isDigit = false ∧ c ≠ '.' := by
  cases tail with
  | nil => simp
  | cons c cs =>
    have hc : c = 'e' := by
      by_contra hne
      simp [power?, hne] at h
    rintro _ ⟨⟩
    subst hc
    decide

/-- Whole digits, a fraction and a power of ten, the latter two perhaps missing. -/
theorem magnitude?_layout (hne : whole ≠ []) (hw : ∀ c ∈ whole, c.isDigit = true)
    (hd : ∀ c ∈ digits, c.isDigit = true) (htail : power? tail = some power) :
    magnitude? (whole ++ (pointed digits ++ tail)) =
      some (Nat.ofDigitChars 10 (whole ++ digits) 0 *
        (10 : ℚ) ^ (power - (digits.length : Int))) := by
  have hhead := head_of_power? htail
  have hrest : fraction (pointed digits ++ tail) = digits ∧
      afterFraction (pointed digits ++ tail) = tail := by
    unfold fraction afterFraction pointed
    split
    · next hnil =>
        have hpoint : ([] ++ tail).head? ≠ some '.' := fun h => (hhead '.' h).2 rfl
        rw [if_neg hpoint, if_neg hpoint]
        exact ⟨hnil.symm, rfl⟩
    · exact Lua.takeWhile_append_of_head hd fun c hc => (hhead c hc).1
  have hstart : ∀ c ∈ (pointed digits ++ tail).head?, c.isDigit = false := by
    unfold pointed
    split
    · exact fun c hc => (hhead c hc).1
    · rintro _ ⟨⟩
      rfl
  obtain ⟨htake, hdrop⟩ := Lua.takeWhile_append_of_head hw hstart
  simp only [magnitude?, htake, hdrop, hrest, htail, if_neg hne, Option.map_some]

/-- Whole digits and perhaps a fraction. -/
theorem magnitude?_pointed (hne : whole ≠ []) (hw : ∀ c ∈ whole, c.isDigit = true)
    (hd : ∀ c ∈ digits, c.isDigit = true) :
    magnitude? (whole ++ pointed digits) =
      some (Nat.ofDigitChars 10 (whole ++ digits) 0 * (10 : ℚ) ^ (0 - (digits.length : Int))) := by
  have hnone : power? [] = some 0 := rfl
  have hreads := magnitude?_layout hne hw hd hnone
  rwa [List.append_nil] at hreads

end Reading

end Numeral

namespace Decimal

open Numeral

variable (d : Decimal)

theorem digits_ne_nil : d.digits ≠ [] := Nat.toDigits_ne_nil

theorem isDigit_of_mem_digits {d : Decimal} {c : Char} (h : c ∈ d.digits) : c.isDigit = true :=
  Nat.isDigit_of_mem_toDigits (by decide) (by decide) h

theorem ofDigitChars_digits : Nat.ofDigitChars 10 d.digits 0 = d.coefficient :=
  Nat.ofDigitChars_ten_toDigits

variable {d}

/-- Zeros behind the digits. -/
theorem reads_padded (h : 0 ≤ d.exponent) :
    magnitude? (d.digits ++ Text.zeros d.exponent.toNat) = some d.value := by
  have hw : ∀ c ∈ d.digits ++ Text.zeros d.exponent.toNat, c.isDigit = true := fun c hc =>
    (List.mem_append.mp hc).elim isDigit_of_mem_digits Lua.isDigit_of_mem_zeros
  have hreads := magnitude?_pointed (List.append_ne_nil_of_left_ne_nil d.digits_ne_nil _) hw
    (List.forall_mem_nil _)
  simp only [pointed, if_true, List.append_nil] at hreads
  rw [hreads, Nat.ofDigitChars_append, ofDigitChars_digits, Text.zeros,
    Nat.ofDigitChars_replicate_zero, value]
  have hexponent : d.exponent = (d.exponent.toNat : Int) := (Int.toNat_of_nonneg h).symm
  congr 1
  rw [hexponent, zpow_natCast, Int.toNat_natCast]
  push_cast
  simp [mul_comm]

/-- A point among the digits. -/
theorem reads_cut {i : Nat} (hpos : 0 < i) (hlt : i < d.digits.length)
    (hi : (i : Int) = d.leading + 1) :
    magnitude? (d.digits.take i ++ '.' :: d.digits.drop i) = some d.value := by
  have hne : d.digits.take i ≠ [] := by
    rw [Ne, List.take_eq_nil_iff]
    rintro (h | h)
    · omega
    · exact d.digits_ne_nil h
  have hfraction : d.digits.drop i ≠ [] := by
    rw [Ne, List.drop_eq_nil_iff]
    omega
  have hreads := magnitude?_pointed hne
    (fun c hc => isDigit_of_mem_digits (List.mem_of_mem_take hc))
    (fun c (hc : c ∈ d.digits.drop i) => isDigit_of_mem_digits (List.mem_of_mem_drop hc))
  rw [pointed, if_neg hfraction] at hreads
  have hpower : 0 - ((d.digits.drop i).length : Int) = d.exponent := by
    rw [List.length_drop, Nat.cast_sub hlt.le, hi, leading]
    ring
  rw [hreads, List.take_append_drop, ofDigitChars_digits, hpower, value]

/-- Zeros in front of the digits. -/
theorem reads_small (h : d.leading < 0) :
    magnitude? ('0' :: '.' :: (Text.zeros (-d.leading - 1).toNat ++ d.digits)) = some d.value := by
  have hd : ∀ c ∈ Text.zeros (-d.leading - 1).toNat ++ d.digits, c.isDigit = true := fun c hc =>
    (List.mem_append.mp hc).elim Lua.isDigit_of_mem_zeros isDigit_of_mem_digits
  have hreads := magnitude?_pointed (List.cons_ne_nil '0' []) (by simp) hd
  rw [pointed, if_neg (List.append_ne_nil_of_right_ne_nil _ d.digits_ne_nil)] at hreads
  have hpower : 0 - ((Text.zeros (-d.leading - 1).toNat ++ d.digits).length : Int) =
      d.exponent := by
    rw [List.length_append, Text.zeros, List.length_replicate, Nat.cast_add,
      Int.toNat_of_nonneg (by omega), leading]
    ring
  have hdigits : Nat.ofDigitChars 10
      (['0'] ++ (Text.zeros (-d.leading - 1).toNat ++ d.digits)) 0 = d.coefficient := by
    have hzeros : ['0'] ++ (Text.zeros (-d.leading - 1).toNat ++ d.digits) =
        List.replicate ((-d.leading - 1).toNat + 1) '0' ++ d.digits := rfl
    rw [hzeros, Nat.ofDigitChars_append, Nat.ofDigitChars_replicate_zero, Nat.mul_zero,
      ofDigitChars_digits]
  rw [hdigits, hpower] at hreads
  exact hreads

/-- A power of ten behind the digits, the first of which is whole. -/
theorem reads_scientific {tail : List Char} (h : power? tail = some d.leading) :
    magnitude? (d.digits.take 1 ++
      ((if d.digits.length ≤ 1 then [] else '.' :: d.digits.drop 1) ++ tail)) = some d.value := by
  have hne : d.digits.take 1 ≠ [] := by simp [d.digits_ne_nil]
  have hpointed : (if d.digits.length ≤ 1 then [] else '.' :: d.digits.drop 1) =
      pointed (d.digits.drop 1) := by
    rw [pointed]
    simp only [List.drop_eq_nil_iff]
  have hpower : d.leading - ((d.digits.drop 1).length : Int) = d.exponent := by
    have hpos : 1 ≤ d.digits.length := List.length_pos_iff.mpr d.digits_ne_nil
    rw [List.length_drop, Nat.cast_sub hpos, leading]
    push_cast
    ring
  rw [hpointed, magnitude?_layout hne
    (fun c hc => isDigit_of_mem_digits (List.mem_of_mem_take hc))
    (fun c hc => isDigit_of_mem_digits (List.mem_of_mem_drop hc)) h,
    List.take_append_drop, ofDigitChars_digits, hpower, value]

/-- The text of a property key is read as the decimal that it was made from. -/
theorem reads_keyText (d : Decimal) : magnitude? d.keyText = some d.value := by
  have hlength : (d.digits.length : Int) = d.leading + 1 - d.exponent := by
    rw [leading]
    ring
  unfold keyText
  dsimp only
  split
  · next h =>
      have hzeros : d.leading + 1 - d.digits.length = d.exponent := by omega
      rw [hzeros]
      exact reads_padded (by omega)
  split
  · next h => exact reads_cut (by omega) (by omega) (by omega)
  split
  · next h =>
      have hzeros : -(d.leading + 1) = -d.leading - 1 := by ring
      rw [hzeros]
      exact reads_small (by omega)
  · rw [List.append_assoc]
    refine reads_scientific ?_
    rw [add_sub_cancel_right]
    exact integer?_sign d.leading

/-- So is the text of a number in code. -/
theorem reads_numeralDigits (d : Decimal) : magnitude? (Lua.numeralDigits d) = some d.value := by
  have hlength : (d.digits.length : Int) = d.leading + 1 - d.exponent := by
    rw [leading]
    ring
  unfold Lua.numeralDigits
  dsimp only
  split
  · rw [List.append_assoc]
    exact reads_scientific (integer?_signed d.leading)
  split
  · next h =>
      have hzeros : d.leading + 1 - d.digits.length = d.exponent := by omega
      rw [hzeros]
      exact reads_padded (by omega)
  split
  · next h => exact reads_cut (by omega) (by omega) (by omega)
  · next h => exact reads_small (by omega)

end Decimal

end EcmaLua
