import StagedAlgebra.Scalar
import StagedAlgebra.Proofs.Rounding

/-!
# Joining forms and equality of attributes

Records are joined by the forms of their scalars, and selected by `looselyEqual`. Scalars with one
form are equal. The converse fails in one way only: an integer beyond `2 ^ 53` that is no binary
number equals the binary number it is rounded to, and the two have different forms.

## Implementation notes

The form of a binary number is decided by the integer that it is, so everything about mixed
numbers goes through `Binary64.toInt?`; rounding enters only where an integer is compared.
-/

namespace StagedAlgebra

namespace Text

theorem inInt64_toInt (i : Int64) : inInt64 i.toInt = true := by
  have lower := Int64.le_toInt i
  have upper := Int64.toInt_lt i
  unfold inInt64 signedLimit
  rw [Bool.and_eq_true, decide_eq_true_iff, decide_eq_true_iff]
  omega

theorem toInt_ofInt_of_inInt64 {i : Int} (h : inInt64 i = true) : (Int64.ofInt i).toInt = i := by
  unfold inInt64 signedLimit at h
  rw [Bool.and_eq_true, decide_eq_true_iff, decide_eq_true_iff] at h
  exact Int64.toInt_ofInt_of_le (by omega) (by omega)

end Text

namespace Scalar

/-- Records with the one and the other value are brought together. -/
def SameKey (a b : Scalar) : Prop :=
  ∃ form, a.keyForm? = some form ∧ b.keyForm? = some form

/-- An integer is rounded to a binary number that is not the integer itself. -/
def RoundsAway (i : Int64) (x : Binary64) : Prop :=
  (∃ y, Binary64.ofInt i.toInt = some y ∧ y.sameNumber x = true) ∧ x.toInt? ≠ some i.toInt

/-- One value is an integer and the other the binary number that it is rounded to, not itself. -/
def RoundedApart : Scalar → Scalar → Prop
  | .int i, .float x | .float x, .int i => RoundsAway i x
  | _, _ => False

theorem sameKey_comm {a b : Scalar} : a.SameKey b ↔ b.SameKey a := by
  constructor <;> exact fun ⟨form, h, h'⟩ => ⟨form, h', h⟩

theorem sameKey_iff {a b form : Scalar} (h : a.keyForm? = some form) :
    a.SameKey b ↔ b.keyForm? = some form := by
  constructor
  · rintro ⟨other, ha, hb⟩
    rw [h] at ha
    rw [hb, ha]
  · exact fun hb => ⟨form, h, hb⟩

theorem intIsFloat_iff {i : Int64} {x : Binary64} :
    intIsFloat i x = true ↔ ∃ y, Binary64.ofInt i.toInt = some y ∧ y.sameNumber x = true := by
  rw [intIsFloat, Option.any_eq_true]

theorem wholeFloat?_eq_some_iff {x : Binary64} {i : Int64} :
    wholeFloat? x = some i ↔ x.toInt? = some i.toInt := by
  unfold wholeFloat?
  constructor
  · intro h
    split at h
    · rename_i n whole
      split at h
      · rename_i fits
        rw [Option.some.injEq] at h
        rw [whole, ← h, Text.toInt_ofInt_of_inInt64 fits]
      · cases h
    · cases h
  · intro h
    simp [h, Text.inInt64_toInt]

theorem keyForm?_float_of_whole {x : Binary64} {i : Int64} (h : x.toInt? = some i.toInt) :
    (Scalar.float x).keyForm? = some (.int i) := by
  simp only [keyForm?, wholeFloat?_eq_some_iff.mpr h]

/-- The form of a binary number is its integer or the number. -/
theorem keyForm?_float_cases {x : Binary64} {form : Scalar}
    (h : (Scalar.float x).keyForm? = some form) :
    (∃ i, form = .int i ∧ x.toInt? = some i.toInt) ∨ form = .float x := by
  simp only [keyForm?] at h
  split at h
  · rename_i i whole
    exact .inl ⟨i, (Option.some.inj h).symm, wholeFloat?_eq_some_iff.mp whole⟩
  · exact .inr (Option.some.inj h).symm

/-- A binary number has the form of an integer exactly if it is that integer. -/
theorem keyForm?_float_eq_int_iff {x : Binary64} {i : Int64} :
    (Scalar.float x).keyForm? = some (.int i) ↔ x.toInt? = some i.toInt := by
  refine ⟨fun h => ?_, keyForm?_float_of_whole⟩
  obtain ⟨j, equal, whole⟩ | equal := keyForm?_float_cases h
  · cases equal
    exact whole
  · cases equal

theorem intIsFloat_of_toInt? {i : Int64} {x : Binary64} (h : x.toInt? = some i.toInt) :
    intIsFloat i x = true := by
  obtain ⟨-, sign⟩ := Binary64.toInt?_eq_some_iff.mp h
  refine intIsFloat_iff.mpr ⟨_, Binary64.ofInt_of_toInt? h, ?_⟩
  apply Binary64.sameNumber_of_quanta (Binary64.quanta_withSign ..)
  rcases sign with zero | sign
  · have : x.quanta = 0 := by
      rw [(Binary64.toInt?_eq_some_iff.mp h).1, zero]
      simp
    exact .inr this
  · left
    show decide (i.toInt < 0) = x.negative
    rw [Bool.eq_iff_iff, decide_eq_true_eq, sign]

/-- Binary numbers have one form exactly if they are the same number. -/
theorem sameKey_float_iff {x y : Binary64} :
    (Scalar.float x).SameKey (.float y) ↔ x.sameNumber y = true := by
  constructor
  · rintro ⟨form, hx, hy⟩
    obtain ⟨i, rfl, whole⟩ | rfl := keyForm?_float_cases hx
    · exact Binary64.sameNumber_of_toInt? whole (keyForm?_float_eq_int_iff.mp hy)
    · obtain ⟨i, equal, -⟩ | equal := keyForm?_float_cases hy
      · cases equal
      · cases equal
        simp [Binary64.sameNumber]
  · intro same
    have whole := Binary64.toInt?_of_sameNumber same
    simp only [Binary64.sameNumber, Bool.or_eq_true, decide_eq_true_eq, Bool.and_eq_true] at same
    rcases same with rfl | ⟨zero, -⟩
    · obtain ⟨form, h⟩ : ∃ form, (Scalar.float x).keyForm? = some form := by
        simp only [keyForm?]
        split <;> exact ⟨_, rfl⟩
      exact ⟨form, h, h⟩
    · have isZero : x.toInt? = some (0 : Int64).toInt := by
        rw [Binary64.toInt?_eq_some_iff]
        simp [Binary64.isZero_iff_quanta.mp zero]
      exact ⟨.int 0, keyForm?_float_of_whole isZero, keyForm?_float_of_whole (whole ▸ isZero)⟩

/-- An integer and a binary number are equal if they have one form or the integer is rounded. -/
theorem intIsFloat_iff_sameKey_or {i : Int64} {x : Binary64} :
    intIsFloat i x = true ↔ (Scalar.int i).SameKey (.float x) ∨ RoundsAway i x := by
  rw [sameKey_iff (a := .int i) rfl, keyForm?_float_eq_int_iff]
  constructor
  · intro equal
    by_cases whole : x.toInt? = some i.toInt
    · exact .inl whole
    · exact .inr ⟨intIsFloat_iff.mp equal, whole⟩
  · rintro (whole | away)
    · exact intIsFloat_of_toInt? whole
    · exact intIsFloat_iff.mpr away.1

/-- Scalars are equal if they have one form, or if one is rounded to the other. -/
theorem looselyEqual_iff_sameKey_or (a b : Scalar) :
    a.looselyEqual b = true ↔ a.SameKey b ∨ a.RoundedApart b := by
  -- A form that is neither an integer nor a binary number is not that of a binary number.
  have no_text (x : Binary64) (s : String) : (Scalar.float x).keyForm? ≠ some (.text s) := by
    intro h
    obtain ⟨i, equal, -⟩ | equal := keyForm?_float_cases h <;> cases equal
  have no_bool (x : Binary64) (v : Bool) : (Scalar.float x).keyForm? ≠ some (.bool v) := by
    intro h
    obtain ⟨i, equal, -⟩ | equal := keyForm?_float_cases h <;> cases equal
  cases a with
  | null => simp [looselyEqual, SameKey, keyForm?, RoundedApart]
  | bool v =>
      rw [sameKey_iff (a := .bool v) rfl]
      cases b with
      | float x => simp [looselyEqual, RoundedApart, no_bool]
      | _ => simp [looselyEqual, RoundedApart, keyForm?, eq_comm]
  | int i =>
      cases b with
      | float x => simpa only [looselyEqual, RoundedApart] using intIsFloat_iff_sameKey_or
      | _ => simp [looselyEqual, RoundedApart, sameKey_iff (a := .int i) rfl, keyForm?, eq_comm]
  | float x =>
      cases b with
      | null => simp [looselyEqual, SameKey, keyForm?, RoundedApart]
      | bool v =>
          rw [sameKey_comm, sameKey_iff (a := .bool v) rfl]
          simp [looselyEqual, RoundedApart, no_bool]
      | int i =>
          rw [sameKey_comm]
          simpa only [looselyEqual, RoundedApart] using intIsFloat_iff_sameKey_or
      | float y => simp [looselyEqual, RoundedApart, sameKey_float_iff]
      | text s =>
          rw [sameKey_comm, sameKey_iff (a := .text s) rfl]
          simp [looselyEqual, RoundedApart, no_text]
  | text s =>
      rw [sameKey_iff (a := .text s) rfl]
      cases b with
      | float x => simp [looselyEqual, RoundedApart, no_text]
      | _ => simp [looselyEqual, RoundedApart, keyForm?, eq_comm]

/-- An integer that is rounded to another number has more than 53 bits. -/
theorem RoundsAway.large {i : Int64} {x : Binary64} (h : RoundsAway i x) :
    2 ^ 53 < i.toInt.natAbs := by
  obtain ⟨⟨y, rounded, same⟩, apart⟩ := h
  by_contra small
  obtain ⟨z, whole⟩ := Binary64.exists_toInt?_eq (i := i.toInt) (by omega)
  have equal : y = z.withSign (decide (i.toInt < 0)) := by
    rw [Binary64.ofInt_of_toInt? whole] at rounded
    exact (Option.some.inj rounded).symm
  apply apart
  rw [← Binary64.toInt?_of_sameNumber same, equal, Binary64.toInt?_eq_some_iff]
  refine ⟨(Binary64.toInt?_eq_some_iff.mp whole).1, .inr ?_⟩
  simp [Binary64.withSign]

theorem RoundedApart.exists_int {a b : Scalar} (h : a.RoundedApart b) :
    ∃ i : Int64, (a = .int i ∨ b = .int i) ∧ 2 ^ 53 < i.toInt.natAbs := by
  unfold RoundedApart at h
  split at h
  · exact ⟨_, .inl rfl, h.large⟩
  · exact ⟨_, .inr rfl, h.large⟩
  · cases h

theorem RoundedApart.not_sameKey {a b : Scalar} (h : a.RoundedApart b) : ¬ a.SameKey b := by
  unfold RoundedApart at h
  split at h
  · rename_i i x
    rw [sameKey_iff (a := .int i) rfl, keyForm?_float_eq_int_iff]
    exact h.2
  · rename_i x i
    rw [sameKey_comm, sameKey_iff (a := .int i) rfl, keyForm?_float_eq_int_iff]
    exact h.2
  · cases h

/-- Values with one form are equal; equality and forms agree on two values exactly if neither is an
integer that is rounded to the other, and such an integer is beyond `2 ^ 53`. -/
theorem looselyEqual_iff_sameKey_iff (a b : Scalar) :
    (a.SameKey b → a.looselyEqual b = true) ∧
      ((a.looselyEqual b = true ↔ a.SameKey b) ↔ ¬ a.RoundedApart b) ∧
      (a.RoundedApart b → ∃ i : Int64, (a = .int i ∨ b = .int i) ∧ 2 ^ 53 < i.toInt.natAbs) := by
  refine ⟨fun same => (looselyEqual_iff_sameKey_or a b).mpr (.inl same), ?_,
    RoundedApart.exists_int⟩
  rw [looselyEqual_iff_sameKey_or]
  constructor
  · intro agree apart
    exact apart.not_sameKey (agree.mp (.inr apart))
  · intro together
    constructor
    · exact fun h => h.resolve_right together
    · exact .inl

/-- The binary number `2 ^ 53`. -/
def twoToThe53 : Binary64 :=
  ⟨false, leastMantissa, 1075, by decide⟩

/-- The integer `2 ^ 53 + 1` equals the binary number `2 ^ 53`, and the two are not joined. -/
theorem looselyEqual_not_sameKey_beyond_53_bits :
    (Scalar.int 9007199254740993).looselyEqual (.float twoToThe53) = true ∧
      ¬ (Scalar.int 9007199254740993).SameKey (.float twoToThe53) := by
  constructor
  · decide +kernel
  · rw [sameKey_iff (a := .int 9007199254740993) rfl]
    decide +kernel

end Scalar

end StagedAlgebra
