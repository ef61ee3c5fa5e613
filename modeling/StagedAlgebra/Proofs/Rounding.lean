import Mathlib.Tactic.Positivity
import Mathlib.Tactic.Ring
import StagedAlgebra.Binary64

/-!
# Exact rounding

The magnitude of a number is a whole multiple of the smallest positive one, its `quanta`. A
quotient with the magnitude of a number of the format is rounded to that number, so canonical
parts are determined by the quanta, and a whole number of the format is what its integer is
rounded to.

## Implementation notes

Everything is derived from `nearest_of_quanta`: two numbers with the same quanta are both the
rounding of one quotient.
-/

namespace StagedAlgebra

theorem leastMantissa_eq : leastMantissa = 2 ^ 52 := by
  decide

theorem divNearestEven_mul (n : Nat) {d : Nat} (hd : 0 < d) : divNearestEven (n * d) d = n := by
  have quotient : n * d / d = n := Nat.mul_div_cancel n hd
  have remainder : n * d % d = 0 := Nat.mul_mod_left n d
  simp only [divNearestEven, quotient, remainder]
  rw [if_neg]
  omega

namespace Binary64

-- The exponents stay variables here, so that no power of this size is computed.
theorem unit_eq_mul {m n : Nat} (h : m + n = 1074) : unit = 2 ^ m * 2 ^ n := by
  unfold unit
  rw [← h]
  exact Nat.pow_add 2 m n

theorem unit_pos : 0 < unit := by
  obtain ⟨n, total⟩ : ∃ n, 0 + n = 1074 := ⟨1074, rfl⟩
  rw [unit_eq_mul total]
  positivity

/-- The magnitude of a number as a multiple of the smallest positive one. -/
def quanta (x : Binary64) : Nat :=
  x.mantissa * 2 ^ x.scale

/-- A number with its sign replaced. -/
def withSign (x : Binary64) (negative : Bool) : Binary64 :=
  { x with negative }

@[simp] theorem quanta_withSign (x : Binary64) (negative : Bool) :
    (x.withSign negative).quanta = x.quanta := rfl

theorem isZero_iff_quanta {x : Binary64} : x.isZero = true ↔ x.quanta = 0 := by
  have positive : 2 ^ x.scale ≠ 0 := by positivity
  simp only [isZero, quanta, beq_iff_eq, Nat.mul_eq_zero, positive, or_false]

/-- The scale of a number is found again from the number of bits of its quanta. -/
theorem log2_quanta (x : Binary64) : Nat.log2 x.quanta - 52 = x.scale := by
  obtain ⟨bound, -, full | least⟩ := x.canonical
  · rw [leastMantissa_eq] at bound full
    have positive : x.quanta ≠ 0 := by
      have : 0 < x.mantissa := by omega
      simp only [quanta]
      positivity
    have lower : 2 ^ (52 + x.scale) ≤ x.quanta := by
      rw [pow_add]
      exact Nat.mul_le_mul_right _ full
    have upper : x.quanta < 2 ^ (52 + x.scale + 1) := by
      calc x.quanta < 2 * 2 ^ 52 * 2 ^ x.scale := Nat.mul_lt_mul_of_pos_right bound (by positivity)
        _ = 2 ^ (52 + x.scale + 1) := by ring
    have log : Nat.log2 x.quanta = 52 + x.scale :=
      (Nat.log2_eq_iff positive).mpr ⟨lower, upper⟩
    omega
  · rw [leastMantissa_eq] at bound
    have small : x.quanta < 2 ^ 53 := by
      simp only [quanta, least, pow_zero, mul_one]
      omega
    rw [least]
    by_cases zero : x.quanta = 0
    · simp [zero]
    · have log : Nat.log2 x.quanta < 53 := (Nat.log2_lt zero).mpr small
      omega

/-- A quotient that is the magnitude of a number is rounded to it. -/
theorem nearest_of_quanta {x : Binary64} {num den : Nat} (negative : Bool) (hd : 0 < den)
    (h : num * unit = x.quanta * den) : nearest negative num den = some (x.withSign negative) := by
  have quotient : x.quanta * den / den = x.quanta := Nat.mul_div_cancel _ hd
  have rounded : divNearestEven (x.quanta * den) (den * Nat.pow 2 x.scale) = x.mantissa := by
    have exact_multiple : x.quanta * den = x.mantissa * (den * Nat.pow 2 x.scale) := by
      simp only [quanta, Nat.pow_eq]
      ring
    rw [exact_multiple]
    exact divNearestEven_mul _ (Nat.mul_pos hd (Nat.two_pow_pos _))
  have fits : x.mantissa ≠ 2 * leastMantissa := x.canonical.1.ne
  simp only [nearest, h, quotient, log2_quanta, rounded, fits, if_false]
  rw [dif_pos x.canonical]
  rfl

/-- Numbers of one sign with the same quanta are equal. -/
theorem eq_of_quanta_eq {x y : Binary64} (hs : x.negative = y.negative)
    (h : x.quanta = y.quanta) : x = y := by
  have first := nearest_of_quanta (x := x) x.negative unit_pos rfl
  have second := nearest_of_quanta (x := y) y.negative unit_pos rfl
  rw [h, hs, second, Option.some.injEq] at first
  calc x = x.withSign y.negative := by rw [← hs]; rfl
    _ = y.withSign y.negative := first.symm
    _ = y := rfl

theorem sameNumber_of_quanta {x y : Binary64} (h : x.quanta = y.quanta)
    (hs : x.negative = y.negative ∨ x.quanta = 0) : x.sameNumber y = true := by
  rcases hs with hs | hs
  · simp [sameNumber, eq_of_quanta_eq hs h]
  · have left : x.isZero = true := isZero_iff_quanta.mpr hs
    have right : y.isZero = true := isZero_iff_quanta.mpr (h ▸ hs)
    simp [sameNumber, left, right]

theorem quanta_of_sameNumber {x y : Binary64} (h : x.sameNumber y = true) :
    x.quanta = y.quanta ∧ (x.negative = y.negative ∨ x.quanta = 0) := by
  simp only [sameNumber, Bool.or_eq_true, decide_eq_true_eq, Bool.and_eq_true,
    isZero_iff_quanta] at h
  rcases h with rfl | ⟨left, right⟩
  · exact ⟨rfl, .inl rfl⟩
  · exact ⟨left.trans right.symm, .inr left⟩

/-- A number is a given integer if it has the magnitude and the sign of the integer. -/
theorem toInt?_eq_some_iff {x : Binary64} {i : Int} :
    x.toInt? = some i ↔
      x.quanta = i.natAbs * unit ∧ (i = 0 ∨ (x.negative = true ↔ i < 0)) := by
  have unfolded : x.toInt? = if x.quanta % unit = 0 then
      some (if x.negative then -((x.quanta / unit : Nat) : Int) else (x.quanta / unit : Nat))
    else none := rfl
  rw [unfolded]
  constructor
  · intro h
    split at h
    · rename_i whole
      have multiple : x.quanta = x.quanta / unit * unit :=
        (Nat.div_mul_cancel (Nat.dvd_of_mod_eq_zero whole)).symm
      generalize x.quanta / unit = n at h multiple
      rw [Option.some.injEq] at h
      have magnitude : i.natAbs = n := by
        split at h <;> omega
      refine ⟨by rw [magnitude, multiple], ?_⟩
      cases sign : x.negative <;> simp only [sign] at h ⊢ <;> simp at h ⊢ <;> omega
    · cases h
  · rintro ⟨multiple, sign⟩
    have quotient : x.quanta / unit = i.natAbs := by
      rw [multiple, Nat.mul_div_cancel _ unit_pos]
    rw [if_pos (by simp [multiple]), quotient]
    rw [Option.some.injEq]
    split
    · rename_i negative
      simp only [negative, true_iff] at sign
      omega
    · rename_i negative
      simp only [Bool.not_eq_true] at negative
      simp only [negative, Bool.false_eq_true, false_iff] at sign
      omega

theorem toInt?_of_sameNumber {x y : Binary64} (h : x.sameNumber y = true) :
    x.toInt? = y.toInt? := by
  obtain ⟨equal, sign⟩ := quanta_of_sameNumber h
  apply Option.ext
  intro i
  rw [toInt?_eq_some_iff, toInt?_eq_some_iff, equal]
  rcases sign with sign | zero
  · rw [sign]
  · have only_zero : y.quanta = i.natAbs * unit → i = 0 := by
      intro h
      have := unit_pos.ne'
      simp only [← equal, zero, zero_eq_mul, Int.natAbs_eq_zero, this, or_false] at h
      exact h
    constructor <;> exact fun h => ⟨h.1, .inl (only_zero h.1)⟩

theorem sameNumber_of_toInt? {x y : Binary64} {i : Int} (hx : x.toInt? = some i)
    (hy : y.toInt? = some i) : x.sameNumber y = true := by
  obtain ⟨left, leftSign⟩ := toInt?_eq_some_iff.mp hx
  obtain ⟨right, rightSign⟩ := toInt?_eq_some_iff.mp hy
  apply sameNumber_of_quanta (left.trans right.symm)
  by_cases zero : i = 0
  · exact .inr (by simp [left, zero])
  · left
    rw [Bool.eq_iff_iff, leftSign.resolve_left zero, rightSign.resolve_left zero]

/-- A whole number of the format is what its integer is rounded to, up to the sign of zero. -/
theorem ofInt_of_toInt? {x : Binary64} {i : Int} (h : x.toInt? = some i) :
    ofInt i = some (x.withSign (decide (i < 0))) :=
  nearest_of_quanta _ Nat.one_pos (by rw [mul_one, (toInt?_eq_some_iff.mp h).1])

/-- A positive number of at most 53 bits, shifted until it has 53. -/
theorem exists_canonicalParts {n : Nat} (positive : n ≠ 0) (h : Nat.log2 n ≤ 52) :
    ∃ mantissa scale, CanonicalParts mantissa scale ∧ mantissa * 2 ^ scale = n * unit := by
  have lower : 2 ^ Nat.log2 n ≤ n := Nat.log2_self_le positive
  have upper : n < 2 ^ (Nat.log2 n + 1) := Nat.lt_log2_self
  obtain ⟨shift, total⟩ : ∃ shift, Nat.log2 n + shift = 52 := ⟨52 - Nat.log2 n, by omega⟩
  have least : leastMantissa = 2 ^ Nat.log2 n * 2 ^ shift := by
    rw [leastMantissa_eq, ← total, pow_add]
  refine ⟨n * 2 ^ shift, 1022 + Nat.log2 n, ⟨?_, by omega, .inl ?_⟩, ?_⟩
  · rw [least, ← mul_assoc]
    exact Nat.mul_lt_mul_of_pos_right (by rwa [← pow_succ']) (by positivity)
  · rw [least]
    exact Nat.mul_le_mul_right _ lower
  · rw [mul_assoc, ← pow_add, unit_eq_mul (m := shift) (n := 1022 + Nat.log2 n) (by omega),
      ← pow_add]

/-- Every integer up to `2 ^ 53` in magnitude is a number of the format. -/
theorem exists_toInt?_eq {i : Int} (h : i.natAbs ≤ 2 ^ 53) : ∃ x : Binary64, x.toInt? = some i := by
  obtain ⟨mantissa, scale, canonical, multiple⟩ :
      ∃ mantissa scale, CanonicalParts mantissa scale ∧ mantissa * 2 ^ scale = i.natAbs * unit := by
    by_cases zero : i.natAbs = 0
    · exact ⟨0, 0, by decide, by simp [zero]⟩
    · by_cases full : i.natAbs = 2 ^ 53
      · refine ⟨leastMantissa, 1075, by decide, ?_⟩
        rw [full, leastMantissa_eq, unit_eq_mul (m := 52) (n := 1022) rfl, ← pow_add, ← pow_add,
          ← pow_add]
      · have bits : Nat.log2 i.natAbs < 53 := (Nat.log2_lt zero).mpr (by omega)
        exact exists_canonicalParts zero (by omega)
  refine ⟨⟨decide (i < 0), mantissa, scale, canonical⟩, toInt?_eq_some_iff.mpr ⟨multiple, ?_⟩⟩
  exact .inr (by simp)

end Binary64

end StagedAlgebra
