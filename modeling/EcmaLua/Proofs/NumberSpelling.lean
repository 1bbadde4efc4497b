import EcmaLua.Proofs.Lua.Phrase
import EcmaLua.Proofs.Number.Numeral
import EcmaLua.Proofs.Number.Shortest

/-!
# Spellings of numbers

A finite number is spelled twice: as a property key and as an expression in code. Both are read as
its shortest decimal, so that numbers with the same key are equal. A whole number below `10 ^ 15`
is spelled exactly.
-/

namespace EcmaLua

/-- The value of a number expression: a numeral, perhaps behind a minus sign. -/
def Lua.numberValue : List Lua.Token → Option ℚ
  | [.numeral text] => Numeral.magnitude? text.toList
  | [.symbol "-", .numeral text] => (Numeral.magnitude? text.toList).map fun v => -v
  | _ => none

/-- The value of the number expression that a text is. -/
def Lua.readNumber (text : String) : Option ℚ := (Lua.scan text.toList).bind Lua.numberValue

namespace Numeral

theorem magnitude?_zero : magnitude? ['0'] = some 0 := by
  have hreads := Decimal.reads_padded (d := ⟨0, 0⟩) (Int.le_refl 0)
  simpa [Decimal.value, Decimal.digits, Text.zeros] using hreads

theorem value?_of_magnitude? {cs : List Char} {v : ℚ} (h : magnitude? cs = some v) :
    value? cs = some v := by
  cases cs with
  | nil => simp [magnitude?] at h
  | cons c cs =>
    have hc : c ≠ '-' := by
      rintro rfl
      simp [magnitude?] at h
    rw [value?, if_neg hc, h]

end Numeral

namespace Lua

/-- The text of a positive decimal is one token. -/
theorem scan_numeralDigits (d : Decimal) :
    scan (numeralDigits d) = some [.numeral (String.ofList (numeralDigits d))] := by
  have hscan : scan ((String.ofList (numeralDigits d)).toList ++ []) = (scan []).map _ :=
    lexes_numeralDigits .lf d [] (by simp)
  rw [String.toList_ofList, List.append_nil] at hscan
  rw [hscan, scan]
  rfl

/-- A minus sign in front of it is a token of its own. -/
theorem scan_minus (d : Decimal) :
    scan ('-' :: numeralDigits d) =
      some [.symbol "-", .numeral (String.ofList (numeralDigits d))] := by
  have hleads := leads_mono (fun _ => endsMinus_of_isDigit) (leads_numeralDigits d)
  have hscan : scan (("-" ++ String.ofList (numeralDigits d)).toList ++ []) = (scan []).map _ :=
    (lexes_minus .lf).append (lexes_numeralDigits .lf d) hleads [] (by simp)
  have htext : ("-" ++ String.ofList (numeralDigits d)).toList ++ [] = '-' :: numeralDigits d := by
    simp
  rw [← htext, hscan, scan]
  rfl

theorem toDigits_mul_pow {n : Nat} (hn : 0 < n) (k : Nat) :
    Nat.toDigits 10 (n * 10 ^ k) = Nat.toDigits 10 n ++ Text.zeros k := by
  induction k with
  | zero => simp [Text.zeros]
  | succ k ih =>
    have hpos : 0 < n * 10 ^ k := Nat.mul_pos hn (Nat.pow_pos (by decide))
    have hshift : n * 10 ^ (k + 1) = 10 * (n * 10 ^ k) + 0 := by ring
    rw [hshift, ← Nat.toDigits_append_toDigits (by decide) hpos (by decide), ih, Text.zeros,
      Text.zeros, List.replicate_succ', ← List.append_assoc]
    rfl

/-- A decimal that is a whole number below `10 ^ 15` is written with all its digits. -/
theorem numeralDigits_whole {d : Decimal} {n : Nat} (hpos : 0 < d.coefficient)
    (hexponent : 0 ≤ d.exponent) (hv : d.value = n) (hlt : n < 10 ^ 15) :
    numeralDigits d = Nat.toDigits 10 n := by
  obtain ⟨k, hk⟩ := Int.eq_ofNat_of_zero_le hexponent
  have hn : n = d.coefficient * 10 ^ k := by
    rw [Decimal.value, hk, zpow_natCast] at hv
    exact_mod_cast hv.symm
  have hdigits : Nat.toDigits 10 n = d.digits ++ Text.zeros k := by
    rw [hn, toDigits_mul_pow hpos, Decimal.digits]
  have hlength : d.digits.length + k ≤ 15 := by
    have hle := (Nat.length_toDigits_le_iff (b := 10) (by decide) (by decide)).mpr hlt
    rwa [hdigits, List.length_append, Text.zeros, List.length_replicate] at hle
  have hone : 0 < d.digits.length := List.length_pos_iff.mpr d.digits_ne_nil
  have hleading : d.leading = k + d.digits.length - 1 := by rw [Decimal.leading, hk]
  unfold numeralDigits
  dsimp only
  rw [if_neg (by omega), if_pos (by omega), hdigits]
  congr 2
  omega

end Lua

namespace Double

/-- The value of the shortest decimal of a number, with its sign. -/
def printed (x : Double) : ℚ :=
  if x.isZero then 0 else (if x.negative then -1 else 1) * x.shortest.value

section Finite

variable {x y : Double}

theorem significand_pos (h : x.isZero = false) : 0 < x.significand :=
  Nat.pos_of_ne_zero fun hzero => by simp [x.isZero_iff.mpr hzero] at h

theorem value_eq (x : Double) : x.value = (if x.negative then -1 else 1) * x.magnitude.value := by
  rw [value_magnitude, value]

theorem printed_of_isZero (h : x.isZero = true) : x.printed = 0 := if_pos h

theorem printed_of_pos (h : x.isZero = false) (hn : x.negative = false) :
    x.printed = x.shortest.value := by
  simp [printed, h, hn]

theorem printed_of_neg (h : x.isZero = false) (hn : x.negative = true) :
    x.printed = -x.shortest.value := by
  simp [printed, h, hn]

theorem shortest_value_pos (h : x.isZero = false) : 0 < x.shortest.value :=
  Decimal.value_pos (coefficient_shortest_pos (significand_pos h))

theorem printed_ne_zero (h : x.isZero = false) : x.printed ≠ 0 := by
  have hpos := shortest_value_pos h
  rcases hn : x.negative with _ | _
  · rw [printed_of_pos h hn]
    exact hpos.ne'
  · rw [printed_of_neg h hn]
    exact neg_ne_zero.mpr hpos.ne'

/-- The key of a finite number is read as its shortest decimal. -/
theorem value?_propertyKey (hx : x.isFinite = true) :
    Numeral.value? x.propertyKey.toList = some x.printed := by
  obtain ⟨hnan, hinf⟩ : x.isNaN = false ∧ x.isInfinite = false := by simpa [isFinite] using hx
  have hkey := Decimal.reads_keyText x.shortest
  rcases hz : x.isZero with _ | _
  · rcases hn : x.negative with _ | _
    · rw [printed_of_pos hz hn]
      simpa [propertyKey, hnan, hinf, hz, hn] using Numeral.value?_of_magnitude? hkey
    · rw [printed_of_neg hz hn]
      simp [propertyKey, hnan, hinf, hz, hn, Numeral.value?, hkey]
  · rw [printed_of_isZero hz]
    simpa [propertyKey, hnan, hz] using Numeral.value?_of_magnitude? Numeral.magnitude?_zero

/-- The other keys are no numerals. -/
theorem value?_propertyKey_of_not_finite (hx : x.isFinite = false) :
    Numeral.value? x.propertyKey.toList = none := by
  rcases hnan : x.isNaN with _ | _
  · have hinf : x.isInfinite = true := by simpa [isFinite, hnan] using hx
    have hz : x.isZero = false := by
      have hb : x.biased = 2047 := by
        simp only [isInfinite, Bool.and_eq_true, beq_iff_eq] at hinf
        exact hinf.1
      simp [isZero, hb]
    rcases hn : x.negative with _ | _ <;>
      simp [propertyKey, hnan, hinf, hz, hn, Numeral.value?, Numeral.magnitude?]
  · simp [propertyKey, hnan, Numeral.value?, Numeral.magnitude?]

/-- The expression for a finite number is read as its shortest decimal. -/
theorem readNumber_numeral (hx : x.isFinite = true) :
    Lua.readNumber (Lua.numeral x) = some x.printed := by
  obtain ⟨hnan, hinf⟩ : x.isNaN = false ∧ x.isInfinite = false := by simpa [isFinite] using hx
  have hdigits := Decimal.reads_numeralDigits x.shortest
  rcases hz : x.isZero with _ | _
  · rcases hn : x.negative with _ | _
    · rw [printed_of_pos hz hn]
      simp [Lua.readNumber, Lua.numeral, hnan, hinf, hz, hn, Lua.scan_numeralDigits,
        Lua.numberValue, hdigits]
    · rw [printed_of_neg hz hn]
      simp [Lua.readNumber, Lua.numeral, hnan, hinf, hz, hn, Lua.scan_minus, Lua.numberValue,
        hdigits]
  · have hzero : Lua.numeralDigits ⟨0, 0⟩ = ['0'] := rfl
    have hscan := Lua.scan_numeralDigits ⟨0, 0⟩
    rw [hzero] at hscan
    rw [printed_of_isZero hz]
    simp [Lua.readNumber, Lua.numeral, hnan, hinf, hz, hscan, Lua.numberValue,
      Numeral.magnitude?_zero]

/-- Different numbers have different shortest decimals. -/
theorem printed_eq_iff (hx : x.isFinite = true) (hy : y.isFinite = true) :
    x.printed = y.printed ↔ x.Equals y := by
  have hxnan : x.isNaN = false := by simpa using (Bool.and_eq_true_iff.mp hx).1
  have hynan : y.isNaN = false := by simpa using (Bool.and_eq_true_iff.mp hy).1
  constructor
  · intro h
    refine ⟨hxnan, hynan, ?_⟩
    rcases hxz : x.isZero with _ | _ <;> rcases hyz : y.isZero with _ | _
    · have hxpos := shortest_value_pos hxz
      have hypos := shortest_value_pos hyz
      -- equal values have equal signs, and then equal shortest decimals
      have hboth : x.negative = y.negative ∧ x.shortest.value = y.shortest.value := by
        rcases hxn : x.negative with _ | _ <;> rcases hyn : y.negative with _ | _
        · rw [printed_of_pos hxz hxn, printed_of_pos hyz hyn] at h
          exact ⟨rfl, h⟩
        · rw [printed_of_pos hxz hxn, printed_of_neg hyz hyn] at h
          linarith
        · rw [printed_of_neg hxz hxn, printed_of_pos hyz hyn] at h
          linarith
        · rw [printed_of_neg hxz hxn, printed_of_neg hyz hyn] at h
          exact ⟨rfl, neg_inj.mp h⟩
      have hreads := reads_shortest (significand_pos hyz)
      rw [← hboth.2] at hreads
      obtain ⟨hb, hf⟩ := (reads_shortest (significand_pos hxz)).unique hreads
      exact Or.inl (eq_of_fields hboth.1 hb hf)
    · rw [printed_of_isZero hyz] at h
      exact absurd h (printed_ne_zero hxz)
    · rw [printed_of_isZero hxz] at h
      exact absurd h.symm (printed_ne_zero hyz)
    · exact Or.inr ⟨rfl, rfl⟩
  · rintro ⟨-, -, rfl | ⟨hxz, hyz⟩⟩
    · rfl
    · rw [printed_of_isZero hxz, printed_of_isZero hyz]

theorem toString_neg {n : Nat} (hn : 0 < n) : toString (-(n : Int)) = "-" ++ toString n := by
  obtain ⟨m, rfl⟩ := Nat.exists_eq_succ_of_ne_zero hn.ne'
  rfl

/-- The digits of a whole number below `10 ^ 15`, without its sign. -/
theorem digits_whole {n : Nat} (hx : 0 < x.significand) (hpos : 0 < n) (hlt : n < 10 ^ 15)
    (hv : x.magnitude.value = n) :
    x.shortest.value = n ∧ Lua.numeralDigits x.shortest = Nat.toDigits 10 n := by
  obtain ⟨hshort, hexponent⟩ := shortest_whole hpos hlt hv
  exact ⟨hshort, Lua.numeralDigits_whole (coefficient_shortest_pos hx) hexponent hshort hlt⟩

/-- A whole number below `10 ^ 15` is written as the integer it is. -/
theorem numeral_whole (hx : x.isFinite = true) {z : Int} (hv : x.value = z) (hz : |z| < 10 ^ 15) :
    x.printed = z ∧ Lua.numeral x = toString z := by
  obtain ⟨hnan, hinf⟩ : x.isNaN = false ∧ x.isInfinite = false := by simpa [isFinite] using hx
  obtain ⟨hlow, hhigh⟩ := abs_lt.mp hz
  rcases hzero : x.isZero with _ | _
  · have hsig := significand_pos hzero
    have hmag := magnitude_pos hsig
    rw [value_eq] at hv
    rcases hn : x.negative with _ | _
    · have heq : x.magnitude.value = (z : ℚ) := by simpa [hn] using hv
      have hpos : 0 < z := by exact_mod_cast heq ▸ hmag
      obtain ⟨n, rfl⟩ := Int.eq_ofNat_of_zero_le hpos.le
      obtain ⟨hshort, hdigits⟩ := digits_whole hsig (by omega) (by omega) heq
      refine ⟨by rw [printed_of_pos hzero hn, hshort, Int.cast_natCast], ?_⟩
      simp only [Lua.numeral, hnan, hinf, hzero, hn, hdigits, Bool.false_eq_true, if_false,
        List.nil_append]
      exact Nat.toString_eq_ofList_toDigits.symm
    · have heq : x.magnitude.value = ((-z : Int) : ℚ) := by
        have hneg : -x.magnitude.value = (z : ℚ) := by simpa [hn] using hv
        push_cast
        linarith
      have hpos : 0 < -z := by exact_mod_cast heq ▸ hmag
      obtain ⟨n, hzn⟩ := Int.eq_ofNat_of_zero_le hpos.le
      obtain rfl : z = -(n : Int) := by omega
      rw [hzn] at heq
      obtain ⟨hshort, hdigits⟩ := digits_whole hsig (by omega) (by omega) heq
      refine ⟨by rw [printed_of_neg hzero hn, hshort, Int.cast_neg, Int.cast_natCast], ?_⟩
      rw [toString_neg (by omega), Nat.toString_eq_ofList_toDigits]
      simp only [Lua.numeral, hnan, hinf, hzero, hn, hdigits, Bool.false_eq_true, if_false, if_true,
        List.singleton_append, String.ofList_cons]
      rfl
  · obtain rfl : z = 0 := by
      rw [value, x.isZero_iff.mp hzero, Nat.cast_zero, zero_mul, mul_zero] at hv
      exact_mod_cast hv.symm
    refine ⟨by rw [printed_of_isZero hzero, Int.cast_zero], ?_⟩
    simp only [Lua.numeral, hnan, hinf, hzero, Bool.false_eq_true, if_false, if_true]
    rfl

end Finite

/-- The shortest decimal of a finite number other than zero starts and ends with a digit that is no
zero, and rounds to the number. The property key of a finite number is a decimal numeral for it, so
that only equal numbers have the same key. The expression for it in code denotes it too. If the
number is whole and below `10 ^ 15`, the expression is its integer, which fits into sixty-four
bits, and denotes it exactly. -/
theorem spelling_keeps_value (x : Double) (hx : x.isFinite = true) :
    (x.isZero = false → 0 < x.shortest.coefficient ∧ x.shortest.coefficient % 10 ≠ 0 ∧
        x.readsBack x.shortest.toRatio = true) ∧
      Numeral.value? x.propertyKey.toList = some x.printed ∧
      (∀ y : Double, x.propertyKey = y.propertyKey ↔ x.Equals y) ∧
      Lua.readNumber (Lua.numeral x) = some x.printed ∧
      ∀ z : Int, x.value = z → |z| < 10 ^ 15 →
        Lua.readNumber (Lua.numeral x) = some x.value ∧ Lua.numeral x = toString z ∧
          Int64.minValue.toInt ≤ z ∧ z ≤ Int64.maxValue.toInt := by
  have hkey := value?_propertyKey hx
  have hcode := readNumber_numeral hx
  refine ⟨fun hz => ?_, hkey, fun y => ⟨fun h => ?_, fun h => ?_⟩, hcode, fun z hv hz => ?_⟩
  · have hsig := significand_pos hz
    refine ⟨coefficient_shortest_pos hsig, coefficient_shortest_mod hsig, ?_⟩
    rw [readsBack_iff x (Decimal.den_toRatio_pos _), Decimal.value_toRatio]
    exact reads_shortest hsig
  · rcases hy : y.isFinite with _ | _
    · rw [h, value?_propertyKey_of_not_finite hy] at hkey
      exact absurd hkey nofun
    · rw [h, value?_propertyKey hy] at hkey
      exact (printed_eq_iff hx hy).mp (Option.some.inj hkey).symm
  · obtain ⟨hxnan, hynan, rfl | ⟨hxz, hyz⟩⟩ := h
    · rfl
    · simp [propertyKey, hxnan, hynan, hxz, hyz]
  · obtain ⟨hprinted, htext⟩ := numeral_whole hx hv hz
    obtain ⟨hlow, hhigh⟩ := abs_lt.mp hz
    refine ⟨by rw [hcode, hprinted, hv], htext, ?_, ?_⟩
    · have hmin : Int64.minValue.toInt = -9223372036854775808 := by decide
      omega
    · have hmax : Int64.maxValue.toInt = 9223372036854775807 := by decide
      omega

/-- A number with a negative power of ten in its key, and a negative whole number in code. -/
theorem spelling_keeps_value_mixed :
    let tiny : Double := ⟨0x3e8421f5f40d8376⟩
    let whole : Double := ⟨0xc045000000000000⟩
    tiny.isFinite = true ∧ tiny.propertyKey = "1.5e-7" ∧
      Numeral.value? "1.5e-7".toList = some tiny.printed ∧ ¬ tiny.Equals whole ∧
      whole.isFinite = true ∧ Lua.readNumber (Lua.numeral whole) = some (-42) ∧
      Lua.numeral whole = "-42" := by
  intro tiny whole
  have htiny : tiny.isFinite = true := by decide
  have hwhole : whole.isFinite = true := by decide
  have hkey : tiny.propertyKey = "1.5e-7" := by decide +kernel
  have hvalue : whole.value = ((-42 : Int) : ℚ) := by
    have hsignificand : whole.significand = 0x15000000000000 := by decide
    have hscale : whole.scale = -47 := by decide
    have hnegative : whole.negative = true := by decide
    rw [value, hsignificand, hscale, hnegative]
    norm_num
  obtain ⟨-, hread, hsame, -⟩ := spelling_keeps_value tiny htiny
  obtain ⟨hexact, htext, -⟩ := (spelling_keeps_value whole hwhole).2.2.2.2 (-42) hvalue (by decide)
  have hother : whole.propertyKey = "-42" := by decide +kernel
  refine ⟨htiny, hkey, hkey ▸ hread, fun h => ?_, hwhole, ?_, htext⟩
  · have heq := (hsame whole).mpr h
    rw [hkey, hother] at heq
    exact absurd heq (by decide)
  · rw [hexact, hvalue]
    norm_num

end Double

end EcmaLua
