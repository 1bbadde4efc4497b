import Mathlib.Tactic.IntervalCases
import EcmaLua.Proofs.Number.Value

/-!
# Shortest decimals

The decimals that round to a number fill an interval around it, and the intervals of different
numbers are disjoint. Some decimal of at most seventeen digits lies in each, so the search for a
shortest one succeeds, and its result tells the number. A whole number below `10 ^ 15` is its own
shortest decimal.
-/

namespace EcmaLua

namespace Double

section Interval

variable {x y : Double}

theorem den_magnitude_pos (x : Double) : 0 < x.magnitude.den :=
  Ratio.den_ofPower_pos _ (by decide) _

theorem value_magnitude (x : Double) : x.magnitude.value = x.significand * (2 : ℚ) ^ x.scale :=
  Ratio.value_ofPower _ (by decide) _

theorem magnitude_pos (h : 0 < x.significand) : 0 < x.magnitude.value := by
  have hcast : (0 : ℚ) < x.significand := by exact_mod_cast h
  rw [value_magnitude]
  exact mul_pos hcast (zpow_pos (by norm_num) _)

/-- The distance to the midpoint below, in quarters of a unit in the last place: the numbers
below a power of two are twice as close. -/
def gap (x : Double) : Nat := if x.significand = Nat.pow 2 52 ∧ 1 < x.biased then 1 else 2

theorem gap_eq (x : Double) : x.gap = 1 ∧ x.significand = 2 ^ 52 ∨ x.gap = 2 := by
  unfold gap
  split
  · next h => exact Or.inl ⟨rfl, h.1⟩
  · exact Or.inr rfl

/-- A quarter of a unit in the last place. -/
def quarter (x : Double) : ℚ := (2 : ℚ) ^ (x.scale - 2)

theorem quarter_pos (x : Double) : 0 < x.quarter := zpow_pos (by norm_num) _

theorem magnitude_eq (x : Double) : x.magnitude.value = 4 * x.significand * x.quarter := by
  have hscale : (2 : ℚ) ^ x.scale = 4 * x.quarter := by
    rw [quarter, zpow_sub₀ (by norm_num)]
    ring
  rw [value_magnitude, hscale]
  ring

theorem value_lower (h : 0 < x.significand) :
    x.lower.value = (4 * x.significand - x.gap) * x.quarter := by
  have hle : x.gap ≤ 4 * x.significand := by
    rcases x.gap_eq with ⟨hg, -⟩ | hg <;> omega
  change (Ratio.ofPower (4 * x.significand - x.gap) 2 (x.scale - 2)).value = _
  rw [Ratio.value_ofPower _ (by decide), Nat.cast_sub hle]
  push_cast
  rfl

theorem value_upper (x : Double) : x.upper.value = (4 * x.significand + 2) * x.quarter := by
  rw [upper, Ratio.value_ofPower _ (by decide)]
  push_cast
  rfl

/-- The values that round to the number: those between the midpoints, and the midpoints too if
the significand is even. -/
def Reads (x : Double) (v : ℚ) : Prop :=
  if x.significand % 2 = 0 then x.lower.value ≤ v ∧ v ≤ x.upper.value
  else x.lower.value < v ∧ v < x.upper.value

theorem readsBack_iff (x : Double) {r : Ratio} (h : 0 < r.den) :
    x.readsBack r = true ↔ x.Reads r.value := by
  have hlower : 0 < x.lower.den := Ratio.den_ofPower_pos _ (by decide) _
  have hupper : 0 < x.upper.den := Ratio.den_ofPower_pos _ (by decide) _
  unfold readsBack Reads
  split
  · rw [Bool.and_eq_true, Ratio.le_iff hlower h, Ratio.le_iff h hupper]
  · rw [Bool.and_eq_true, Ratio.lt_iff hlower h, Ratio.lt_iff h hupper]

theorem Reads.bounds {v : ℚ} (h : x.Reads v) : x.lower.value ≤ v ∧ v ≤ x.upper.value := by
  unfold Reads at h
  split at h
  · exact h
  · exact ⟨h.1.le, h.2.le⟩

theorem Reads.of_lt {v : ℚ} (hl : x.lower.value < v) (hu : v < x.upper.value) : x.Reads v := by
  unfold Reads
  split
  · exact ⟨hl.le, hu.le⟩
  · exact ⟨hl, hu⟩

/-- Both midpoints count only for an even significand. -/
theorem Reads.even_or_lt {v : ℚ} (h : x.Reads v) :
    x.significand % 2 = 0 ∨ x.lower.value < v ∧ v < x.upper.value := by
  unfold Reads at h
  split at h
  · next heven => exact Or.inl heven
  · exact Or.inr h

/-- What rounds to a positive number is positive. -/
theorem Reads.pos {v : ℚ} (hx : 0 < x.significand) (h : x.Reads v) : 0 < v := by
  have hcast : (1 : ℚ) ≤ x.significand := by exact_mod_cast hx
  have hgap : (x.gap : ℚ) ≤ 2 := by
    rcases x.gap_eq with ⟨hg, -⟩ | hg <;> rw [hg] <;> norm_num
  have hlower : 0 < x.lower.value := by
    rw [value_lower hx]
    exact mul_pos (by linarith) x.quarter_pos
  exact hlower.trans_le h.bounds.1

theorem reads_magnitude (hx : 0 < x.significand) : x.Reads x.magnitude.value := by
  have hpos := x.quarter_pos
  refine Reads.of_lt ?_ ?_
  · rw [value_lower hx, magnitude_eq]
    refine mul_lt_mul_of_pos_right ?_ hpos
    rcases x.gap_eq with ⟨hg, -⟩ | hg <;> rw [hg] <;> norm_num
  · rw [value_upper, magnitude_eq]
    exact mul_lt_mul_of_pos_right (by linarith) hpos

/-- Numbers with one scale: the midpoint between neighbours goes to the even one. -/
theorem not_reads_of_scale_eq {v : ℚ} (hscale : x.scale = y.scale)
    (hlt : x.significand < y.significand) (hx : x.Reads v) (hy : y.Reads v) : False := by
  have hquarter : y.quarter = x.quarter := by rw [quarter, quarter, hscale]
  have hpos := x.quarter_pos
  have hu := x.value_upper
  have hl := value_lower (Nat.zero_lt_of_lt hlt)
  rw [hquarter] at hl
  have hgap : y.gap ≤ 2 := by rcases y.gap_eq with ⟨hg, -⟩ | hg <;> omega
  have hle : 4 * x.significand + 2 + y.gap ≤ 4 * y.significand := by omega
  have hcast : (4 * x.significand + 2 + y.gap : ℚ) ≤ 4 * y.significand := by exact_mod_cast hle
  have hmiddle : x.upper.value ≤ y.lower.value := by
    rw [hu, hl]
    exact mul_le_mul_of_nonneg_right (by linarith) hpos.le
  have hends := hx.bounds.2.trans hmiddle
  have hstart := hy.bounds.1
  -- both numbers take the midpoint, so both significands are even and they are no neighbours
  rcases hx.even_or_lt with hxe | ⟨-, h⟩
  · rcases hy.even_or_lt with hye | ⟨h, -⟩
    · have heq : x.upper.value = y.lower.value := by linarith [hx.bounds.2]
      rw [hu, hl] at heq
      have hsame := mul_right_cancel₀ hpos.ne' heq
      have hnat : 4 * x.significand + 2 + y.gap = 4 * y.significand := by
        have hsum : (4 * x.significand + 2 + y.gap : ℚ) = 4 * y.significand := by linarith
        exact_mod_cast hsum
      omega
    · linarith
  · linarith

theorem scale_ge (x : Double) : -1074 ≤ x.scale := by
  unfold scale
  split <;> omega

/-- Numbers with different scales: the one with the smaller scale is less, and if the two are
neighbours, its significand is odd. -/
theorem not_reads_of_scale_lt {v : ℚ} (hscale : x.scale < y.scale) (hx : x.Reads v)
    (hy : y.Reads v) : False := by
  have hbiased : 1 < y.biased := by
    have hge := x.scale_ge
    have hys : y.scale = if y.biased = 0 then -1074 else (y.biased : Int) - 1075 := rfl
    split at hys <;> omega
  have hnormal : 2 ^ 52 ≤ y.significand := by
    rw [significand, if_neg (by omega), Nat.pow_eq]
    omega
  have hypos : 0 < y.significand := by omega
  have hfour : 2 ^ 54 ≤ 4 * y.significand - y.gap + 1 := by
    by_cases htwo : y.significand = 2 ^ 52
    · have hg : y.gap = 1 := if_pos ⟨htwo, hbiased⟩
      omega
    · rcases y.gap_eq with ⟨hg, -⟩ | hg <;> omega
  have hfour' : (2 : ℚ) ^ 54 - 1 ≤ 4 * y.significand - y.gap := by
    have hle : y.gap ≤ 4 * y.significand := by rcases y.gap_eq with ⟨hg, -⟩ | hg <;> omega
    have hcast : ((2 ^ 54 : ℕ) : ℚ) ≤ ((4 * y.significand - y.gap + 1 : ℕ) : ℚ) := by
      exact_mod_cast hfour
    rw [Nat.cast_add, Nat.cast_sub hle] at hcast
    push_cast at hcast
    linarith
  have hquarter : 2 * x.quarter ≤ y.quarter := by
    have hexp : 2 * x.quarter = (2 : ℚ) ^ (x.scale - 2 + 1) := by
      rw [quarter, zpow_add₀ (by norm_num), zpow_one]
      ring
    rw [hexp, quarter]
    exact zpow_le_zpow_right₀ (by norm_num) (by omega)
  have hlower : ((2 : ℚ) ^ 55 - 2) * x.quarter ≤ y.lower.value := by
    rw [value_lower hypos]
    calc ((2 : ℚ) ^ 55 - 2) * x.quarter = (2 ^ 54 - 1) * (2 * x.quarter) := by ring
      _ ≤ (2 ^ 54 - 1) * y.quarter := mul_le_mul_of_nonneg_left hquarter (by norm_num)
      _ ≤ (4 * y.significand - y.gap) * y.quarter :=
        mul_le_mul_of_nonneg_right hfour' y.quarter_pos.le
  have hupper (n : Nat) (hn : x.significand ≤ n) : x.upper.value ≤ (4 * n + 2) * x.quarter := by
    have hcast : (x.significand : ℚ) ≤ n := by exact_mod_cast hn
    rw [value_upper]
    exact mul_le_mul_of_nonneg_right (by linarith) x.quarter_pos.le
  have hlt := x.significand_lt
  have hpos := x.quarter_pos
  have hstart := hy.bounds.1
  rcases hx.even_or_lt with heven | ⟨-, h⟩
  · have hle := hupper (2 ^ 53 - 2) (by omega)
    have hend := hx.bounds.2
    norm_num at hle hlower
    linarith
  · have hle := hupper (2 ^ 53 - 1) (by omega)
    norm_num at hle hlower
    linarith

/-- A value rounds to one number only, up to the sign. -/
theorem Reads.unique {v : ℚ} (hx : x.Reads v) (hy : y.Reads v) :
    x.biased = y.biased ∧ x.fraction = y.fraction := by
  have hscale : x.scale = y.scale := by
    rcases lt_trichotomy x.scale y.scale with h | h | h
    · exact (not_reads_of_scale_lt h hx hy).elim
    · exact h
    · exact (not_reads_of_scale_lt h hy hx).elim
  have hsignificand : x.significand = y.significand := by
    rcases lt_trichotomy x.significand y.significand with h | h | h
    · exact (not_reads_of_scale_eq hscale h hx hy).elim
    · exact h
    · exact (not_reads_of_scale_eq hscale.symm h hy hx).elim
  have hxf := x.fraction_lt
  have hyf := y.fraction_lt
  unfold scale at hscale
  unfold significand at hsignificand
  rw [Nat.pow_eq] at hsignificand
  by_cases hxb : x.biased = 0 <;> by_cases hyb : y.biased = 0 <;>
    simp only [hxb, hyb, if_true, if_false] at hscale hsignificand <;> omega

end Interval

section Search

/-- Where a shift was found, none below it would do. -/
theorem leastShift_spec {v : Ratio} {fuel start last : Nat} (hfuel : last ≤ start + fuel)
    (hstart : start ≤ last) (hlast : v.den ≤ v.num * 10 ^ last) :
    start ≤ leastShift v fuel start ∧ v.den ≤ v.num * 10 ^ leastShift v fuel start ∧
      ∀ t, start ≤ t → t < leastShift v fuel start → v.num * 10 ^ t < v.den := by
  induction fuel generalizing start with
  | zero =>
    obtain rfl : start = last := by omega
    exact ⟨Nat.le_refl _, hlast, fun t ht ht' => absurd ht' (Nat.not_lt.mpr ht)⟩
  | succ fuel ih =>
    rw [leastShift]
    split
    · next hfound => exact ⟨Nat.le_refl _, hfound, fun t ht ht' => absurd ht' (Nat.not_lt.mpr ht)⟩
    · next hnot =>
        have hne : start ≠ last := fun h => hnot (h ▸ hlast)
        obtain ⟨hle, hdo, hleast⟩ := ih (by omega : last ≤ start + 1 + fuel) (by omega)
        refine ⟨by omega, hdo, fun t ht ht' => ?_⟩
        rcases Nat.eq_or_lt_of_le ht with rfl | hlt
        · exact Nat.lt_of_not_le hnot
        · exact hleast t hlt ht'

/-- The leading digit of a natural number, by the number of its digits. -/
theorem pow_length_toDigits {n : Nat} (hn : 0 < n) :
    10 ^ ((Nat.toDigits 10 n).length - 1) ≤ n ∧ n < 10 ^ (Nat.toDigits 10 n).length := by
  have hpos : 0 < (Nat.toDigits 10 n).length := Nat.length_toDigits_pos
  refine ⟨?_, (Nat.length_toDigits_le_iff (by decide) hpos).mp (Nat.le_refl _)⟩
  rcases Nat.eq_or_lt_of_le hpos with hone | hmore
  · rw [← hone]
    exact hn
  · refine Nat.le_of_not_lt fun hlt => ?_
    have := (Nat.length_toDigits_le_iff (b := 10) (by decide) (Nat.sub_pos_of_lt hmore)).mpr hlt
    omega

/-- The place of the leading digit of a fraction that is not too small. -/
theorem leadingPlace_spec {v : Ratio} (hden : 0 < v.den) {last : Nat} (hpos : 1 ≤ last)
    (hlast : last ≤ 400) (hsmall : v.den ≤ v.num * 10 ^ last) :
    (10 : ℚ) ^ leadingPlace v ≤ v.value ∧ v.value < (10 : ℚ) ^ (leadingPlace v + 1) := by
  have hden' : (0 : ℚ) < v.den := by exact_mod_cast hden
  unfold leadingPlace
  split
  · next hge =>
      have hfloor : 0 < v.floor := Nat.div_pos hge hden
      obtain ⟨hlow, hhigh⟩ := pow_length_toDigits hfloor
      have hpos : 0 < (Nat.toDigits 10 v.floor).length := Nat.length_toDigits_pos
      generalize (Nat.toDigits 10 v.floor).length = k at hlow hhigh hpos
      obtain ⟨k, rfl⟩ := Nat.exists_eq_succ_of_ne_zero hpos.ne'
      have hplace : ((k + 1 : ℕ) : Int) - 1 = (k : Int) := by push_cast; ring
      have hplace' : (k : Int) + 1 = ((k + 1 : ℕ) : Int) := rfl
      rw [hplace, hplace', zpow_natCast, zpow_natCast]
      constructor
      · calc (10 : ℚ) ^ k ≤ v.floor := by exact_mod_cast hlow
          _ ≤ v.value := v.floor_le_value
      · calc v.value < v.floor + 1 := Ratio.value_lt_floor_add_one hden
          _ ≤ (10 : ℚ) ^ (k + 1) := by exact_mod_cast hhigh
  · next hlt =>
      have hfuel : last ≤ 1 + 400 := Nat.le_add_left_of_le hlast
      obtain ⟨hle, hdo, hleast⟩ := leastShift_spec hfuel hpos hsmall
      generalize leastShift v 400 1 = t at hle hdo hleast
      obtain ⟨t, rfl⟩ := Nat.exists_eq_succ_of_ne_zero (Nat.one_le_iff_ne_zero.mp hle)
      have hbelow : v.num * 10 ^ t < v.den := by
        rcases Nat.eq_zero_or_pos t with rfl | hpos
        · simpa using hlt
        · exact hleast t hpos (Nat.lt_succ_self t)
      have hplace : -((t + 1 : ℕ) : Int) + 1 = -(t : Int) := by push_cast; ring
      rw [hplace, zpow_neg, zpow_neg, zpow_natCast, zpow_natCast, Ratio.value]
      constructor
      · rw [le_div_iff₀ hden', inv_mul_le_iff₀ (by positivity), mul_comm]
        exact_mod_cast hdo
      · rw [div_lt_iff₀ hden', lt_inv_mul_iff₀ (by positivity), mul_comm]
        exact_mod_cast hbelow

variable {x : Double}

/-- The place of the last of `count` digits. -/
def place (x : Double) (count : Nat) : Int := leadingPlace x.magnitude - (count : Int) + 1

/-- The first `count` digits. -/
def below (x : Double) (count : Nat) : Nat :=
  (x.magnitude.mul (.ofPower 1 10 (-x.place count))).floor

theorem leading_magnitude (hx : 0 < x.significand) :
    (10 : ℚ) ^ leadingPlace x.magnitude ≤ x.magnitude.value ∧
      x.magnitude.value < (10 : ℚ) ^ (leadingPlace x.magnitude + 1) := by
  have hscale := x.scale_ge
  have hden := x.den_magnitude_pos
  rw [magnitude] at hden ⊢
  generalize x.scale = e at hden hscale
  cases e with
  | ofNat k =>
    have hnum : 0 < x.significand * Nat.pow 2 k * 10 ^ 1 :=
      Nat.mul_pos (Nat.mul_pos hx (Nat.pow_pos (by decide))) (by decide)
    exact leadingPlace_spec hden (Nat.le_refl 1) (by decide) hnum
  | negSucc k =>
    -- three binary places fit into one decimal place
    refine leadingPlace_spec hden (by omega : 1 ≤ (k + 3) / 3) (by omega) ?_
    calc Nat.pow 2 (k + 1) ≤ 2 ^ (3 * ((k + 3) / 3)) :=
          Nat.pow_le_pow_right (by decide) (by omega)
      _ = 8 ^ ((k + 3) / 3) := Nat.pow_mul 2 3 _
      _ ≤ 10 ^ ((k + 3) / 3) := Nat.pow_le_pow_left (by decide) _
      _ ≤ x.significand * 10 ^ ((k + 3) / 3) := Nat.le_mul_of_pos_left _ hx

/-- The number lies between its first digits and the next larger ones. -/
theorem below_spec (x : Double) (count : Nat) :
    (Decimal.mk (x.below count) (x.place count)).value ≤ x.magnitude.value ∧
      x.magnitude.value < (Decimal.mk (x.below count + 1) (x.place count)).value := by
  have hten : (0 : ℚ) < 10 ^ x.place count := zpow_pos (by norm_num) _
  have hden : 0 < (Ratio.ofPower 1 10 (-x.place count)).den :=
    Ratio.den_ofPower_pos _ (by decide) _
  have hscaled : (x.magnitude.mul (.ofPower 1 10 (-x.place count))).value =
      x.magnitude.value / 10 ^ x.place count := by
    rw [Ratio.value_mul, Ratio.value_ofPower _ (by decide), zpow_neg]
    push_cast
    ring
  have hlow := Ratio.floor_le_value (x.magnitude.mul (.ofPower 1 10 (-x.place count)))
  have hhigh := Ratio.value_lt_floor_add_one (Ratio.den_mul_pos x.den_magnitude_pos hden)
  rw [hscaled] at hlow hhigh
  rw [le_div_iff₀ hten] at hlow
  rw [div_lt_iff₀ hten] at hhigh
  refine ⟨hlow, ?_⟩
  rw [Decimal.value]
  push_cast
  exact hhigh

/-- Either a neighbour with `count` digits reads back, and such a one is taken, or none does. -/
theorem candidate_cases (x : Double) (count : Nat) :
    (∃ c, (c = x.below count ∨ c = x.below count + 1) ∧
      x.candidate count = some ⟨c, x.place count⟩ ∧
        x.Reads (Decimal.mk c (x.place count)).value) ∨
      x.candidate count = none ∧ ¬ x.Reads (Decimal.mk (x.below count) (x.place count)).value ∧
        ¬ x.Reads (Decimal.mk (x.below count + 1) (x.place count)).value := by
  have hreads (c : Nat) := x.readsBack_iff (Decimal.den_toRatio_pos ⟨c, x.place count⟩)
  simp only [Decimal.value_toRatio] at hreads
  have hcandidate : x.candidate count =
      bif x.readsBack (Decimal.mk (x.below count) (x.place count)).toRatio then
        bif x.readsBack (Decimal.mk (x.below count + 1) (x.place count)).toRatio then
          if (Ratio.mul ⟨2, 1⟩ x.magnitude).lt
              (Decimal.mk (2 * x.below count + 1) (x.place count)).toRatio
            then some ⟨x.below count, x.place count⟩ else some ⟨x.below count + 1, x.place count⟩
        else some ⟨x.below count, x.place count⟩
      else
        bif x.readsBack (Decimal.mk (x.below count + 1) (x.place count)).toRatio
          then some ⟨x.below count + 1, x.place count⟩ else none := by
    unfold candidate below place
    dsimp only
    generalize x.readsBack _ = low
    generalize x.readsBack _ = high
    cases low <;> cases high <;> rfl
  rw [hcandidate, ← hreads, ← hreads]
  cases h : x.readsBack (Decimal.mk (x.below count) (x.place count)).toRatio <;>
    cases h' : x.readsBack (Decimal.mk (x.below count + 1) (x.place count)).toRatio
  · exact Or.inr ⟨rfl, Bool.false_ne_true, Bool.false_ne_true⟩
  · exact Or.inl ⟨_, Or.inr rfl, rfl, (hreads _).mp h'⟩
  · exact Or.inl ⟨_, Or.inl rfl, rfl, (hreads _).mp h⟩
  · refine Or.inl ?_
    rw [cond_true, cond_true]
    split
    · exact ⟨_, Or.inl rfl, rfl, (hreads _).mp h⟩
    · exact ⟨_, Or.inr rfl, rfl, (hreads _).mp h'⟩

/-- Seventeen digits are enough: their last place is finer than the interval is wide. -/
theorem candidate_seventeen (hx : 0 < x.significand) : x.candidate 17 ≠ none := by
  rcases x.candidate_cases 17 with ⟨c, -, hc, -⟩ | ⟨-, hlow, hhigh⟩
  · simp [hc]
  exfalso
  obtain ⟨hle, hlt⟩ := x.below_spec 17
  have hlead := (leading_magnitude hx).1
  have hplace : leadingPlace x.magnitude = x.place 17 + 16 := by
    rw [place]
    push_cast
    ring
  rw [hplace, zpow_add₀ (by norm_num)] at hlead
  simp only [Decimal.value, Nat.cast_add, Nat.cast_one, add_mul, one_mul] at hle hlt hlow hhigh
  have hq := x.quarter_pos
  have hm := x.magnitude_eq
  have hl : x.lower.value = x.magnitude.value - x.gap * x.quarter := by
    rw [value_lower hx, hm]
    ring
  have hu : x.upper.value = x.magnitude.value + 2 * x.quarter := by
    rw [value_upper, hm]
    ring
  have hsig : (x.significand : ℚ) ≤ 2 ^ 53 := by exact_mod_cast x.significand_lt.le
  have hgap : 0 ≤ x.gap * x.quarter := mul_nonneg (Nat.cast_nonneg _) hq.le
  generalize (10 : ℚ) ^ x.place 17 = step at hlead hle hlt hlow hhigh
  generalize (x.below 17 : ℚ) * step = v at hle hlt hlow hhigh
  have hwide : step < x.gap * x.quarter + 2 * x.quarter := by
    rcases x.gap_eq with ⟨hg, hs⟩ | hg
    · rw [hg, Nat.cast_one]
      rw [hm, hs] at hlead
      norm_num at hlead
      linarith
    · rw [hg, Nat.cast_ofNat]
      rw [hm] at hlead
      have hbound := mul_le_mul_of_nonneg_right hsig hq.le
      norm_num at hlead hbound
      linarith
  by_cases hclose : x.lower.value < v
  · exact hlow (Reads.of_lt hclose (by linarith))
  · exact hhigh (Reads.of_lt (by linarith) (by linarith))

/-- A candidate has at most as many digits as were asked for, or is the next power of ten. -/
theorem coefficient_candidate_le (hx : 0 < x.significand) {count : Nat} {d : Decimal}
    (h : x.candidate count = some d) : d.coefficient ≤ 10 ^ count := by
  have hten : (0 : ℚ) < 10 ^ x.place count := zpow_pos (by norm_num) _
  have hbelow : x.below count < 10 ^ count := by
    have hlt : (x.below count : ℚ) * 10 ^ x.place count < 10 ^ count * 10 ^ x.place count := by
      calc (x.below count : ℚ) * 10 ^ x.place count ≤ x.magnitude.value := (x.below_spec count).1
        _ < 10 ^ (leadingPlace x.magnitude + 1) := (leading_magnitude hx).2
        _ = 10 ^ ((count : Int) + x.place count) := by
          rw [place]
          congr 1
          ring
        _ = 10 ^ count * 10 ^ x.place count := by rw [zpow_add₀ (by norm_num), zpow_natCast]
    exact_mod_cast lt_of_mul_lt_mul_right hlt hten.le
  rcases x.candidate_cases count with ⟨c, hc, heq, -⟩ | ⟨heq, -⟩
  · obtain rfl : ⟨c, x.place count⟩ = d := Option.some.inj (heq.symm.trans h)
    show c ≤ 10 ^ count
    omega
  · simp [heq] at h

theorem reads_candidate {count : Nat} {d : Decimal} (h : x.candidate count = some d) :
    x.Reads d.value ∧ d.exponent = x.place count := by
  rcases x.candidate_cases count with ⟨c, -, heq, hreads⟩ | ⟨heq, -⟩
  · obtain rfl : ⟨c, x.place count⟩ = d := Option.some.inj (heq.symm.trans h)
    exact ⟨hreads, rfl⟩
  · simp [heq] at h

/-- The search stops at the first number for which there is a result. -/
theorem findSome?_range {α : Type} {f : Nat → Option α} {n k : Nat} (hk : k < n)
    (h : f k ≠ none) : ∃ i ≤ k, ∃ a, f i = some a ∧ (List.range n).findSome? f = some a := by
  have hmem : k ∈ List.range n := List.mem_range.mpr hk
  have hsome : ((List.range n).findSome? f).isSome = true :=
    List.findSome?_isSome_iff.mpr ⟨k, hmem, Option.isSome_iff_ne_none.mpr h⟩
  obtain ⟨a, ha⟩ := Option.isSome_iff_exists.mp hsome
  obtain ⟨before, i, after, hrange, hi, hnone⟩ := List.findSome?_eq_some_iff.mp ha
  refine ⟨i, ?_, a, hi, ha⟩
  have hsorted : (before ++ i :: after).Pairwise (· < ·) := hrange ▸ List.pairwise_lt_range
  rw [hrange, List.mem_append, List.mem_cons] at hmem
  rcases hmem with hmem | rfl | hmem
  · exact absurd (hnone k hmem) h
  · exact Nat.le_refl k
  · have hlater := (List.pairwise_cons.mp (List.pairwise_append.mp hsorted).2.1).1
    exact (hlater k hmem).le

/-- The shortest decimal comes from the candidate with the fewest digits. -/
theorem shortest_eq_strip {k : Nat} (hk : k < 17) (h : x.candidate (k + 1) ≠ none) :
    ∃ i ≤ k, ∃ d, x.candidate (i + 1) = some d ∧ x.shortest = d.strip 20 := by
  obtain ⟨i, hi, d, hd, hfound⟩ := findSome?_range (f := fun k => x.candidate (k + 1)) hk h
  refine ⟨i, hi, d, hd, ?_⟩
  rw [shortest]
  simp only [hfound, Option.getD_some]

theorem reads_shortest (hx : 0 < x.significand) : x.Reads x.shortest.value := by
  obtain ⟨i, -, d, hd, heq⟩ := shortest_eq_strip (k := 16) (by decide) (candidate_seventeen hx)
  rw [heq, Decimal.value_strip]
  exact (reads_candidate hd).1

theorem coefficient_shortest_pos (hx : 0 < x.significand) : 0 < x.shortest.coefficient := by
  have hpos := (reads_shortest hx).pos hx
  refine Nat.pos_of_ne_zero fun hzero => ?_
  simp [Decimal.value, hzero] at hpos

/-- The last digit is no zero. -/
theorem coefficient_shortest_mod (hx : 0 < x.significand) : x.shortest.coefficient % 10 ≠ 0 := by
  obtain ⟨i, hi, d, hd, heq⟩ := shortest_eq_strip (k := 16) (by decide) (candidate_seventeen hx)
  have hpos : 0 < d.coefficient := by
    refine Nat.pos_of_ne_zero fun hzero => ?_
    have hvalue := (reads_candidate hd).1.pos hx
    simp [Decimal.value, hzero] at hvalue
  have hlt : d.coefficient < 10 ^ 20 := by
    calc d.coefficient ≤ 10 ^ (i + 1) := coefficient_candidate_le hx hd
      _ ≤ 10 ^ 17 := Nat.pow_le_pow_right (by decide) (by omega)
      _ < 10 ^ 20 := by decide
  rw [heq]
  exact Decimal.strip_coefficient hpos hlt

end Search

section Whole

variable {x : Double} {n : Nat}

/-- Whole numbers below `10 ^ 15` have room for further digits. -/
theorem quarter_le_of_whole (hlt : n < 10 ^ 15) (hv : x.magnitude.value = n) :
    x.quarter ≤ 1 / 4 := by
  by_cases hb : x.biased = 0
  · have hscale : x.scale = -1074 := if_pos hb
    calc x.quarter ≤ (2 : ℚ) ^ (-2 : Int) := by
          rw [quarter, hscale]
          exact zpow_le_zpow_right₀ (by norm_num) (by norm_num)
      _ = 1 / 4 := by norm_num
  · have hnormal : 2 ^ 52 ≤ x.significand := by
      rw [significand, if_neg hb, Nat.pow_eq]
      omega
    have hcast : (2 : ℚ) ^ 52 ≤ x.significand := by exact_mod_cast hnormal
    have hn : (n : ℚ) < 1000000000000000 := by exact_mod_cast hlt
    have hle := mul_le_mul_of_nonneg_right hcast x.quarter_pos.le
    rw [magnitude_eq, mul_assoc] at hv
    norm_num at hle
    linarith

/-- No other whole number rounds to a whole number below `10 ^ 15`. -/
theorem Reads.eq_whole {m : Nat} (hlt : n < 10 ^ 15) (hv : x.magnitude.value = n)
    (hx : 0 < x.significand) (h : x.Reads m) : m = n := by
  have hquarter := quarter_le_of_whole hlt hv
  have hgap : (x.gap : ℚ) * x.quarter ≤ 2 * x.quarter := by
    refine mul_le_mul_of_nonneg_right ?_ x.quarter_pos.le
    rcases x.gap_eq with ⟨hg, -⟩ | hg <;> rw [hg] <;> norm_num
  obtain ⟨hl, hu⟩ := h.bounds
  rw [value_lower hx, sub_mul, ← magnitude_eq, hv] at hl
  rw [value_upper, add_mul, ← magnitude_eq, hv] at hu
  have hlow : (n : ℚ) < m + 1 := by linarith
  have hhigh : (m : ℚ) < n + 1 := by linarith
  have hlow' : n < m + 1 := by exact_mod_cast hlow
  have hhigh' : m < n + 1 := by exact_mod_cast hhigh
  omega

/-- The leading digit of a whole number. -/
theorem leadingPlace_whole (hpos : 0 < n) (hv : x.magnitude.value = n) :
    leadingPlace x.magnitude = ((Nat.toDigits 10 n).length : Int) - 1 := by
  have hden := x.den_magnitude_pos
  have hfloor : x.magnitude.floor = n := by
    have hle := x.magnitude.floor_le_value
    have hgt := Ratio.value_lt_floor_add_one hden
    rw [hv] at hle hgt
    have hle' : x.magnitude.floor ≤ n := by exact_mod_cast hle
    have hgt' : n < x.magnitude.floor + 1 := by exact_mod_cast hgt
    omega
  have hge : x.magnitude.den ≤ x.magnitude.num := by
    refine Nat.le_of_not_lt fun hlt => hpos.ne' ?_
    rw [← hfloor]
    exact Nat.div_eq_of_lt hlt
  rw [leadingPlace, if_pos hge, hfloor]

/-- The shortest decimal of a whole number below `10 ^ 15` is the number itself. -/
theorem shortest_whole (hpos : 0 < n) (hlt : n < 10 ^ 15) (hv : x.magnitude.value = n) :
    x.shortest.value = n ∧ 0 ≤ x.shortest.exponent := by
  have hx : 0 < x.significand := by
    refine Nat.pos_of_ne_zero fun hzero => ?_
    rw [value_magnitude, hzero, Nat.cast_zero, zero_mul] at hv
    exact hpos.ne (by exact_mod_cast hv)
  have hlength : (Nat.toDigits 10 n).length ≤ 15 :=
    (Nat.length_toDigits_le_iff (by decide) (by decide)).mpr hlt
  obtain ⟨k, hk⟩ : ∃ k, (Nat.toDigits 10 n).length = k + 1 :=
    Nat.exists_eq_succ_of_ne_zero Nat.length_toDigits_pos.ne'
  have hplace (i : Nat) : x.place (i + 1) = (k : Int) - i := by
    rw [place, leadingPlace_whole hpos hv, hk]
    push_cast
    ring
  -- all digits of the number together are a candidate
  have hall : x.candidate (k + 1) ≠ none := by
    rcases x.candidate_cases (k + 1) with ⟨c, -, hc, -⟩ | ⟨-, hnot, -⟩
    · simp [hc]
    · have hself : (Decimal.mk (x.below (k + 1)) (x.place (k + 1))).value = x.magnitude.value := by
        obtain ⟨hle, hgt⟩ := x.below_spec (k + 1)
        rw [hplace, sub_self] at hle hgt ⊢
        simp only [Decimal.value, zpow_zero, mul_one, hv, Nat.cast_le, Nat.cast_lt] at hle hgt ⊢
        exact_mod_cast Nat.le_antisymm hle (Nat.le_of_lt_succ hgt)
      exact absurd (hself ▸ reads_magnitude hx) hnot
  obtain ⟨i, hi, d, hd, heq⟩ := shortest_eq_strip (by omega) hall
  obtain ⟨hreads, hexponent⟩ := reads_candidate hd
  rw [hplace] at hexponent
  have hvalue : d.value = (d.coefficient * 10 ^ (k - i) : ℕ) := by
    rw [Decimal.value, hexponent, ← Nat.cast_sub hi, zpow_natCast]
    push_cast
    rfl
  rw [hvalue] at hreads
  constructor
  · rw [heq, Decimal.value_strip, hvalue, hreads.eq_whole hlt hv hx]
  · rw [heq]
    have hle := d.exponent_le_strip 20
    omega

end Whole

end Double

end EcmaLua
