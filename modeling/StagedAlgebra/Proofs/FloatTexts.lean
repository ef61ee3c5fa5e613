import Mathlib.Algebra.Order.Field.Power
import Mathlib.Tactic.FieldSimp
import Mathlib.Tactic.Linarith
import Mathlib.Tactic.NormNum
import Mathlib.Tactic.Positivity
import StagedAlgebra.Proofs.NumberTexts
import StagedAlgebra.Proofs.Rounding

/-!
# Distinct numbers have distinct texts

The decimal that is written for a binary number lies in the interval of the number, and the
intervals of two numbers have nothing in common. So a number is known from the value of its text.

## Implementation notes

Values of decimals are rationals. Seventeen digits suffice because the grid of decimals is then
finer than any interval is wide; the lower half of an interval is shorter at a power of two, but
there the mantissa is small. Two adjacent intervals share an end only if it belongs to at most
one of them, because of two adjacent mantissas one is odd.
-/

namespace StagedAlgebra

open Text (natChars)

/-- The value of a decimal. -/
def ScaledDecimal.value (d : ScaledDecimal) : ℚ :=
  d.digits * 10 ^ d.exponent

theorem ScaledDecimal.value_strip (steps : Nat) (d : ScaledDecimal) :
    (d.strip steps).value = d.value := by
  induction steps generalizing d with
  | zero => rfl
  | succ steps ih =>
      rw [strip]
      split
      · rename_i zero
        have digits : (d.digits : ℚ) = ((d.digits / 10 : Nat) : ℚ) * 10 := by
          exact_mod_cast (Nat.div_mul_cancel (Nat.dvd_of_mod_eq_zero zero.2)).symm
        rw [ih, value, value, digits, zpow_add_one₀ (by norm_num : (10 : ℚ) ≠ 0)]
        ring
      · rfl

namespace Binary64

/-- A value lies in an interval. -/
def Interval.Contains (i : Interval) (v : ℚ) : Prop :=
  if i.closed then i.low ≤ v * i.den ∧ v * i.den ≤ i.high
  else i.low < v * i.den ∧ v * i.den < i.high

theorem Interval.holds_iff (i : Interval) {n d : Nat} (hd : 0 < d) :
    i.holds n d = true ↔ i.Contains (n / d) := by
  have positive : (0 : ℚ) < d := by exact_mod_cast hd
  have scaled : (n : ℚ) / d * i.den * d = n * i.den := by field_simp
  have le_left : (i.low * d ≤ n * i.den) ↔ (i.low : ℚ) ≤ n / d * i.den := by
    rw [← mul_le_mul_iff_of_pos_right positive, scaled]
    exact_mod_cast Iff.rfl
  have le_right : (n * i.den ≤ i.high * d) ↔ (n : ℚ) / d * i.den ≤ i.high := by
    rw [← mul_le_mul_iff_of_pos_right positive, scaled]
    exact_mod_cast Iff.rfl
  have lt_left : (i.low * d < n * i.den) ↔ (i.low : ℚ) < n / d * i.den := by
    rw [← mul_lt_mul_iff_of_pos_right positive, scaled]
    exact_mod_cast Iff.rfl
  have lt_right : (n * i.den < i.high * d) ↔ (n : ℚ) / d * i.den < i.high := by
    rw [← mul_lt_mul_iff_of_pos_right positive, scaled]
    exact_mod_cast Iff.rfl
  unfold Interval.holds Interval.Contains
  cases i.closed <;> simp [le_left, le_right, lt_left, lt_right]

theorem Interval.contains_of_lt {i : Interval} {v : ℚ} (low : i.low < v * i.den)
    (high : v * i.den < i.high) : i.Contains v := by
  unfold Interval.Contains
  split
  · exact ⟨low.le, high.le⟩
  · exact ⟨low, high⟩

theorem Interval.Contains.bounds {i : Interval} {v : ℚ} (h : i.Contains v) :
    i.low ≤ v * i.den ∧ v * i.den ≤ i.high := by
  unfold Interval.Contains at h
  split at h
  · exact h
  · exact ⟨h.1.le, h.2.le⟩

/-- An end that lies in an interval makes it closed. -/
theorem Interval.Contains.closed_of_end {i : Interval} {v : ℚ} (h : i.Contains v)
    (isEnd : v * i.den = i.low ∨ v * i.den = i.high) : i.closed = true := by
  unfold Interval.Contains at h
  split at h
  · assumption
  · rcases isEnd with equal | equal
    · exact absurd equal h.1.ne'
    · exact absurd equal h.2.ne

/-- How far an interval reaches down. -/
theorem exists_low (x : Binary64) : ∃ reach,
    x.interval.low = (4 * x.mantissa - reach) * 2 ^ x.scale ∧
      ((reach = 2 ∧ ¬ (x.mantissa = 4503599627370496 ∧ x.scale ≠ 0)) ∨
        (reach = 1 ∧ x.mantissa = 4503599627370496)) := by
  by_cases power : x.mantissa = leastMantissa ∧ x.scale ≠ 0
  · refine ⟨1, ?_, .inr ⟨rfl, power.1⟩⟩
    simp only [interval, if_pos power]
    rfl
  · refine ⟨2, ?_, .inl ⟨rfl, power⟩⟩
    simp only [interval, if_neg power]
    rfl

theorem high_interval (x : Binary64) : x.interval.high = (4 * x.mantissa + 2) * 2 ^ x.scale := rfl

/-- Intervals stand in the order of their numbers, and two closed ones are apart. -/
theorem high_le_low {x y : Binary64}
    (h : x.scale < y.scale ∨ (x.scale = y.scale ∧ x.mantissa < y.mantissa)) :
    x.interval.high ≤ y.interval.low ∧
      (x.interval.closed = true → y.interval.closed = true →
        x.interval.high < y.interval.low) := by
  have hx := x.canonical
  have hy := y.canonical
  simp only [CanonicalParts, leastMantissa] at hx hy
  obtain ⟨reach, low, reaches⟩ := y.exists_low
  have closed (z : Binary64) : z.interval.closed = true ↔ z.mantissa % 2 = 0 := by
    simp [interval]
  rw [low, high_interval, closed, closed]
  rcases h with lower | ⟨same, less⟩
  · have doubled : 2 * 2 ^ x.scale ≤ 2 ^ y.scale := by
      rw [mul_comm, ← pow_succ]
      exact Nat.pow_le_pow_right (by norm_num) lower
    have positive : 0 < 2 ^ x.scale := by positivity
    have wide : 18014398509481983 ≤ 4 * y.mantissa - reach := by omega
    have product := Nat.mul_le_mul wide doubled
    constructor
    · refine le_trans ?_ product
      rw [← mul_assoc]
      exact Nat.mul_le_mul_right _ (by omega)
    · intro even _
      refine lt_of_lt_of_le ?_ product
      rw [← mul_assoc]
      exact Nat.mul_lt_mul_of_pos_right (by omega) positive
  · rw [same]
    constructor
    · exact Nat.mul_le_mul_right _ (by omega)
    · intro even even'
      exact Nat.mul_lt_mul_of_pos_right (by omega) (by positivity)

theorem den_interval (x : Binary64) : x.interval.den = 4 * unit := rfl

/-- Numbers whose intervals meet have one magnitude. -/
theorem parts_eq_of_contains {x y : Binary64} {v : ℚ} (hx : x.interval.Contains v)
    (hy : y.interval.Contains v) : x.mantissa = y.mantissa ∧ x.scale = y.scale := by
  have apart {x y : Binary64} (hx : x.interval.Contains v) (hy : y.interval.Contains v) :
      ¬ (x.scale < y.scale ∨ (x.scale = y.scale ∧ x.mantissa < y.mantissa)) := by
    intro order
    obtain ⟨le, lt⟩ := high_le_low order
    have above := hx.bounds.2
    have below := hy.bounds.1
    rw [den_interval] at above below
    have cast : (x.interval.high : ℚ) ≤ y.interval.low := by exact_mod_cast le
    have closed := hx.closed_of_end (.inr (by rw [den_interval]; linarith))
    have closed' := hy.closed_of_end (.inl (by rw [den_interval]; linarith))
    have cast' : (x.interval.high : ℚ) < y.interval.low := by exact_mod_cast lt closed closed'
    linarith
  have first := apart hx hy
  have second := apart hy hx
  omega

/-- The numerator of a power of ten. -/
def tensUp (exponent : Int) : Nat :=
  if 0 ≤ exponent then Nat.pow 10 exponent.toNat else 1

/-- The denominator of a power of ten. -/
def tensDown (exponent : Int) : Nat :=
  if 0 ≤ exponent then 1 else Nat.pow 10 exponent.natAbs

theorem tensDown_pos (exponent : Int) : 0 < tensDown exponent := by
  unfold tensDown
  split
  · exact Nat.one_pos
  · exact Nat.pow_pos (by norm_num)

theorem tensUp_div_tensDown (exponent : Int) :
    (tensUp exponent : ℚ) / tensDown exponent = 10 ^ exponent := by
  unfold tensUp tensDown
  by_cases h : 0 ≤ exponent
  · obtain ⟨k, rfl⟩ := Int.eq_ofNat_of_zero_le h
    simp
  · obtain ⟨k, rfl⟩ : ∃ k : Nat, exponent = -(k : Int) := ⟨exponent.natAbs, by omega⟩
    simp only [h, if_false]
    simp

theorem Interval.holds_grid_iff (i : Interval) (n : Nat) (exponent : Int) :
    i.holds (n * tensUp exponent) (tensDown exponent) = true ↔ i.Contains (n * 10 ^ exponent) := by
  rw [Interval.holds_iff i (tensDown_pos exponent), ← tensUp_div_tensDown, Nat.cast_mul,
    mul_div_assoc]

/-- The last point of a grid that is not above the number of an interval. -/
def Interval.gridBelow (i : Interval) (exponent : Int) : Nat :=
  i.value * tensDown exponent / (i.den * tensUp exponent)

theorem Interval.onGrid_eq (i : Interval) (tie : TieRule) (exponent : Int) :
    i.onGrid tie exponent =
      let below := i.gridBelow exponent
      let twice := 2 * i.value * tensDown exponent
      let middle := (2 * below + 1) * (i.den * tensUp exponent)
      match i.holds (below * tensUp exponent) (tensDown exponent),
        i.holds ((below + 1) * tensUp exponent) (tensDown exponent) with
      | false, false => none
      | true, false => some below
      | false, true => some (below + 1)
      | true, true =>
        if twice < middle then some below
        else if middle < twice then some (below + 1)
        else match tie with
          | .up => some (below + 1)
          | .toEven => some (if below % 2 = 0 then below else below + 1) := rfl

/-- A point that is found lies in the interval, and none is found only if both neighbours of the
number lie outside. -/
theorem Interval.onGrid_cases (i : Interval) (tie : TieRule) (exponent : Int) :
    (∃ n, i.onGrid tie exponent = some n ∧ i.Contains (n * 10 ^ exponent)) ∨
      (i.onGrid tie exponent = none ∧ ¬ i.Contains (i.gridBelow exponent * 10 ^ exponent) ∧
        ¬ i.Contains ((i.gridBelow exponent + 1 : Nat) * 10 ^ exponent)) := by
  rw [i.onGrid_eq]
  simp only [← i.holds_grid_iff]
  generalize i.gridBelow exponent = below
  cases lower : i.holds (below * tensUp exponent) (tensDown exponent) <;>
    cases upper : i.holds ((below + 1) * tensUp exponent) (tensDown exponent)
  case false.false => simp
  case true.false => exact .inl ⟨below, rfl, lower⟩
  case false.true => exact .inl ⟨below + 1, rfl, upper⟩
  case true.true =>
    left
    dsimp only
    split
    · exact ⟨below, rfl, lower⟩
    · split
      · exact ⟨below + 1, rfl, upper⟩
      · cases tie with
        | up => exact ⟨below + 1, rfl, upper⟩
        | toEven =>
            refine ⟨_, rfl, ?_⟩
            split
            · exact lower
            · exact upper

/-- The neighbours of a number on a grid are around it. -/
theorem Interval.gridBelow_bounds (i : Interval) (hden : 0 < i.den) (exponent : Int) :
    (i.gridBelow exponent : ℚ) * 10 ^ exponent * i.den ≤ i.value ∧
      (i.value : ℚ) < ((i.gridBelow exponent + 1 : Nat) : ℚ) * 10 ^ exponent * i.den := by
  have down : (0 : ℚ) < tensDown exponent := by exact_mod_cast tensDown_pos exponent
  have up : 0 < i.den * tensUp exponent := by
    refine Nat.mul_pos hden ?_
    unfold tensUp
    split
    · exact Nat.pow_pos (by norm_num)
    · exact Nat.one_pos
  have lower : (i.gridBelow exponent : ℚ) * (i.den * tensUp exponent) ≤
      i.value * tensDown exponent := by
    exact_mod_cast Nat.div_mul_le_self (i.value * tensDown exponent) (i.den * tensUp exponent)
  have upper : (i.value : ℚ) * tensDown exponent <
      ((i.gridBelow exponent + 1 : Nat) : ℚ) * (i.den * tensUp exponent) := by
    rw [mul_comm ((i.gridBelow exponent + 1 : Nat) : ℚ)]
    exact_mod_cast Nat.lt_mul_div_succ (i.value * tensDown exponent) up
  rw [← tensUp_div_tensDown]
  constructor
  · calc _ = (i.gridBelow exponent : ℚ) * (i.den * tensUp exponent) / tensDown exponent := by ring
      _ ≤ i.value := (div_le_iff₀ down).mpr lower
  · calc (i.value : ℚ) < _ := (lt_div_iff₀ down).mpr upper
      _ = _ := by ring

/-- A grid that is finer than an interval is wide has a point in it. -/
theorem Interval.exists_onGrid {i : Interval} (tie : TieRule) {exponent : Int} (hden : 0 < i.den)
    (below : i.low < i.value) (above : i.value < i.high)
    (fine : (i.den : ℚ) * 10 ^ exponent < i.high - i.low) :
    ∃ n, i.onGrid tie exponent = some n := by
  obtain ⟨n, found, -⟩ | ⟨-, lower, upper⟩ := i.onGrid_cases tie exponent
  · exact ⟨n, found⟩
  · -- Otherwise the two neighbours are at or beyond the ends, too far from each other.
    exfalso
    obtain ⟨atMost, atLeast⟩ := i.gridBelow_bounds hden exponent
    have low : (i.low : ℚ) < i.value := by exact_mod_cast below
    have high : (i.value : ℚ) < i.high := by exact_mod_cast above
    have left : (i.gridBelow exponent : ℚ) * 10 ^ exponent * i.den ≤ i.low := by
      by_contra inside
      exact lower (contains_of_lt (not_le.mp inside) (by linarith))
    have right : (i.high : ℚ) ≤ ((i.gridBelow exponent + 1 : Nat) : ℚ) * 10 ^ exponent * i.den := by
      by_contra inside
      exact upper (contains_of_lt (by linarith) (not_le.mp inside))
    push_cast at right
    linarith

theorem Interval.contains_of_search {i : Interval} {tie : TieRule} {top : Int} {count left : Nat}
    {d : ScaledDecimal} (h : i.search tie top count left = some d) : i.Contains d.value := by
  induction left generalizing count with
  | zero => cases h
  | succ left ih =>
      rw [search] at h
      split at h
      · rename_i n found
        obtain ⟨m, found', inside⟩ | ⟨missed, -⟩ := i.onGrid_cases tie (top - (count : Int) + 1)
        · rw [found, Option.some.injEq] at found'
          rw [← Option.some.inj h, ScaledDecimal.value_strip, ScaledDecimal.value, found']
          exact inside
        · rw [found] at missed
          cases missed
      · exact ih h

theorem Interval.exists_search {i : Interval} {tie : TieRule} {top : Int} {count left k : Nat}
    (hk : k < left) (h : ∃ n, i.onGrid tie (top - ((count + k : Nat) : Int) + 1) = some n) :
    ∃ d, i.search tie top count left = some d := by
  induction left generalizing count k with
  | zero => omega
  | succ left ih =>
      rw [search]
      split
      · exact ⟨_, rfl⟩
      · rename_i missed
        cases k with
        | zero =>
            obtain ⟨n, found⟩ := h
            rw [Nat.add_zero, missed] at found
            cases found
        | succ k =>
            rw [show count + (k + 1) = count + 1 + k by omega] at h
            exact ih (by omega) h

/-- The leading digit of a number is not above it. -/
theorem Interval.den_mul_pow_magnitude_le {i : Interval} (hden : 0 < i.den)
    (hvalue : 0 < i.value) :
    (i.den : ℚ) * 10 ^ i.magnitude ≤ i.value := by
  unfold Interval.magnitude
  split
  · rename_i large
    have whole : 0 < i.value / i.den := Nat.div_pos large hden
    obtain ⟨k, digits⟩ : ∃ k, (natChars (i.value / i.den)).length = k + 1 :=
      ⟨_, (Nat.succ_pred_eq_of_pos Nat.length_toDigits_pos).symm⟩
    have bound : 10 ^ k ≤ i.value / i.den := by
      by_contra less
      cases k with
      | zero => omega
      | succ k =>
          have := (Nat.length_toDigits_le_iff (by norm_num) k.succ_pos).mpr (not_le.mp less)
          unfold natChars at digits
          omega
    have product : i.den * 10 ^ k ≤ i.value := by
      rw [mul_comm]
      exact (Nat.le_div_iff_mul_le hden).mp bound
    rw [digits, show ((k + 1 : Nat) : Int) - 1 = k by omega, zpow_natCast]
    exact_mod_cast product
  · rename_i small
    generalize digits : (natChars ((i.den - 1) / i.value)).length = k
    have bound : (i.den - 1) / i.value < 10 ^ k :=
      (Nat.length_toDigits_le_iff (by norm_num) (digits ▸ Nat.length_toDigits_pos)).mp digits.le
    have product : i.den ≤ i.value * 10 ^ k := by
      have := (Nat.div_lt_iff_lt_mul hvalue).mp bound
      rw [mul_comm] at this
      omega
    rw [zpow_neg, zpow_natCast, ← div_eq_mul_inv, div_le_iff₀ (by positivity)]
    exact_mod_cast product

/-- Grids of seventeen digits are finer than the interval of any number is wide. -/
theorem fine_interval {x : Binary64} (hx : x.isZero = false) :
    (x.interval.den : ℚ) * 10 ^ (x.interval.magnitude - 16) < x.interval.high - x.interval.low := by
  have positive : 0 < x.mantissa := by
    simp only [isZero, beq_eq_false_iff_ne] at hx
    omega
  have canonical := x.canonical
  simp only [CanonicalParts, leastMantissa] at canonical
  have hvalue : x.interval.value = 4 * x.mantissa * 2 ^ x.scale := rfl
  have step : (0 : ℚ) < 2 ^ x.scale := by positivity
  have leading : (x.interval.den : ℚ) * 10 ^ x.interval.magnitude ≤
      4 * x.mantissa * 2 ^ x.scale := by
    have bound := Interval.den_mul_pow_magnitude_le (i := x.interval)
      (by rw [den_interval]; exact Nat.mul_pos (by norm_num) unit_pos)
      (by rw [hvalue]; positivity)
    rw [hvalue] at bound
    exact_mod_cast bound
  obtain ⟨reach, low, reaches⟩ := x.exists_low
  have width : (x.interval.high : ℚ) - x.interval.low = (2 + reach) * 2 ^ x.scale := by
    rw [low, high_interval, Nat.cast_mul, Nat.cast_mul, Nat.cast_sub (by omega)]
    push_cast
    ring
  have short : (4 * x.mantissa : ℚ) < (2 + reach) * 10 ^ 16 := by
    have : 4 * x.mantissa < (2 + reach) * 10 ^ 16 := by omega
    exact_mod_cast this
  calc (x.interval.den : ℚ) * 10 ^ (x.interval.magnitude - 16)
      = x.interval.den * 10 ^ x.interval.magnitude / 10 ^ 16 := by
        rw [zpow_sub₀ (by norm_num), mul_div_assoc]
        norm_cast
    _ ≤ 4 * x.mantissa * 2 ^ x.scale / 10 ^ 16 := by gcongr
    _ < (2 + reach) * 2 ^ x.scale := by
        rw [div_lt_iff₀ (by positivity)]
        nlinarith
    _ = x.interval.high - x.interval.low := width.symm

/-- The shortest decimal of a number lies in its interval. -/
theorem contains_shortest (x : Binary64) (tie : TieRule) :
    x.interval.Contains (x.shortest tie).value := by
  unfold shortest
  split
  · rename_i zero
    have mantissa : x.mantissa = 0 := by simpa [isZero] using zero
    obtain ⟨reach, low, -⟩ := x.exists_low
    have closed : x.interval.closed = true := by simp [interval, mantissa]
    rw [mantissa, Nat.mul_zero, Nat.zero_sub, Nat.zero_mul] at low
    rw [Interval.Contains, if_pos closed, low, ScaledDecimal.value, Nat.cast_zero, zero_mul,
      zero_mul]
    exact ⟨le_refl 0, Nat.cast_nonneg _⟩
  · rename_i nonzero
    rw [Bool.not_eq_true] at nonzero
    have positive : 0 < x.mantissa := by
      simp only [isZero, beq_eq_false_iff_ne] at nonzero
      omega
    have step : 0 < 2 ^ x.scale := by positivity
    have hvalue : x.interval.value = 4 * x.mantissa * 2 ^ x.scale := rfl
    obtain ⟨reach, low, reaches⟩ := x.exists_low
    have grid : ∃ n, x.interval.onGrid tie (x.interval.magnitude - ((1 + 16 : Nat) : Int) + 1) =
        some n := by
      rw [show x.interval.magnitude - ((1 + 16 : Nat) : Int) + 1 = x.interval.magnitude - 16 by
        omega]
      refine Interval.exists_onGrid tie ?_ ?_ ?_ (fine_interval nonzero)
      · rw [den_interval]
        exact Nat.mul_pos (by norm_num) unit_pos
      · rw [low, hvalue]
        exact Nat.mul_lt_mul_of_pos_right (by omega) step
      · rw [high_interval, hvalue]
        exact Nat.mul_lt_mul_of_pos_right (by omega) step
    obtain ⟨d, found⟩ : ∃ d, x.interval.search tie x.interval.magnitude 1 17 = some d :=
      Interval.exists_search (by norm_num) grid
    simp only [found, Option.getD_some]
    exact Interval.contains_of_search found

end Binary64

namespace Json

/-- The value of a number text without its sign. -/
def NumberText.magnitude (t : NumberText) : ℚ :=
  Nat.ofDigitChars 10 (t.whole ++ t.fraction.getD []) 0 *
    10 ^ (t.exponent.getD 0 - ((t.fraction.getD []).length : Int))

theorem magnitude_positionalText (negative : Bool) (d : ScaledDecimal) :
    (positionalText negative d).magnitude = d.value := by
  unfold positionalText
  split
  · rename_i whole
    obtain ⟨k, exponent⟩ := Int.eq_ofNat_of_zero_le whole
    simp only [NumberText.magnitude, ScaledDecimal.value, exponent, Option.getD_some,
      Option.getD_none, List.length_singleton, Nat.ofDigitChars_append,
      Nat.ofDigitChars_replicate_zero, Text.ofDigitChars_natChars]
    by_cases zero : d.digits = 0
    · simp [zero, Nat.ofDigitChars]
    · simp [zero, Nat.ofDigitChars]
      ring
  · rename_i places
    obtain ⟨k, exponent⟩ : ∃ k : Nat, d.exponent = -(k : Int) := ⟨d.exponent.natAbs, by omega⟩
    have long := lt_length_padLeft k d.digits
    have count : (Text.padLeft '0' (k + 1) (natChars d.digits)).length -
        ((Text.padLeft '0' (k + 1) (natChars d.digits)).length - k) = k := by omega
    have number : Nat.ofDigitChars 10 (Text.padLeft '0' (k + 1) (natChars d.digits)) 0 =
        d.digits := by
      rw [Text.padLeft, Nat.ofDigitChars_append, Nat.ofDigitChars_replicate_zero, Nat.mul_zero,
        Text.ofDigitChars_natChars]
    simp only [NumberText.magnitude, ScaledDecimal.value, exponent, Int.natAbs_neg,
      Int.natAbs_natCast, Option.getD_some, Option.getD_none, List.take_append_drop,
      List.length_drop, count, number, zero_sub]

theorem magnitude_exponentText (negative : Bool) (d : ScaledDecimal) :
    (exponentText negative d).magnitude = d.value := by
  unfold exponentText
  dsimp only
  split
  · rename_i one
    have all : (natChars d.digits).take 1 = natChars d.digits :=
      List.take_of_length_le one.le
    simp [NumberText.magnitude, ScaledDecimal.value, all, one]
  · have nonempty : (natChars d.digits).length ≠ 0 := by simpa using Text.natChars_ne_nil d.digits
    have exponent : d.exponent + ((natChars d.digits).length : Int) - 1 -
        (((natChars d.digits).length - 1 : Nat) : Int) = d.exponent := by omega
    simp only [NumberText.magnitude, ScaledDecimal.value, Option.getD_some,
      List.take_append_drop, List.length_drop, exponent, Text.ofDigitChars_natChars]

theorem magnitude_floatText (x : Binary64) :
    (floatText x).magnitude = (x.shortest .toEven).value := by
  unfold floatText
  dsimp only
  split
  · exact magnitude_positionalText ..
  · exact magnitude_exponentText ..

theorem negative_floatText (x : Binary64) : (floatText x).negative = x.negative := by
  unfold floatText positionalText exponentText
  dsimp only
  split
  · split <;> rfl
  · rfl

/-- Distinct numbers have distinct texts. -/
theorem floatText_injective {x y : Binary64} (h : floatText x = floatText y) : x = y := by
  have sign : x.negative = y.negative := by
    rw [← negative_floatText x, h, negative_floatText y]
  have value : (x.shortest .toEven).value = (y.shortest .toEven).value := by
    rw [← magnitude_floatText x, h, magnitude_floatText y]
  have inside := x.contains_shortest .toEven
  rw [value] at inside
  obtain ⟨mantissa, scale⟩ := Binary64.parts_eq_of_contains inside (y.contains_shortest .toEven)
  cases x
  cases y
  cases sign
  cases mantissa
  cases scale
  rfl

/-- A binary number is written with a point or with an exponent. -/
theorem floatText_marked (x : Binary64) :
    (floatText x).fraction ≠ none ∨ (floatText x).exponent ≠ none := by
  unfold floatText positionalText exponentText
  dsimp only
  split
  · split <;> simp
  · simp

/-- A binary number is not written as an integer is. -/
theorem floatText_ne_intText (x : Binary64) (i : Int) : floatText x ≠ intText i := by
  intro h
  have marked := floatText_marked x
  rw [h] at marked
  simp [intText] at marked

end Json

end StagedAlgebra
