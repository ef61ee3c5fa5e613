import Mathlib.Data.List.TakeDrop
import StagedAlgebra.Json.Written

/-!
# Decimal digits

The digits of a number read back as the number. They are digits only, at least one, and start
with a zero for zero alone; so a reader that takes digits as far as they go finds exactly them.
-/

namespace StagedAlgebra.Text

theorem isDigit_eq (c : Char) : isDigit c = c.isDigit := by
  rw [Bool.eq_iff_iff]
  simp only [isDigit, Char.isDigit, Bool.and_eq_true, decide_eq_true_eq]
  rfl

theorem baseDigit?_of_isDigit {c : Char} (h : isDigit c = true) :
    baseDigit? 10 c = some (c.toNat - '0'.toNat) := by
  have bounds : '0' ≤ c ∧ c ≤ '9' := by simpa [isDigit] using h
  have upper : c.toNat ≤ 57 := Char.le_def.mp bounds.2
  have small : c.toNat - '0'.toNat < 10 := by
    have : '0'.toNat = 48 := rfl
    omega
  simp only [baseDigit?, if_pos bounds, if_pos small]

theorem numeralFrom_of_digits {cs : List Char} (h : ∀ c ∈ cs, isDigit c = true) (n : Nat) :
    numeralFrom 10 n cs = some (Nat.ofDigitChars 10 cs n) := by
  induction cs generalizing n with
  | nil => simp [numeralFrom]
  | cons c rest ih =>
      have first : isDigit c = true := h c (by simp)
      rw [numeralFrom, baseDigit?_of_isDigit first, Nat.ofDigitChars_cons, Nat.mul_comm 10 n]
      exact ih (fun d hd => h d (by simp [hd])) _

theorem isDigit_of_mem_natChars {n : Nat} {c : Char} (h : c ∈ natChars n) : isDigit c = true := by
  rw [isDigit_eq]
  exact Nat.isDigit_of_mem_toDigits (by decide) (by decide) h

theorem natChars_ne_nil (n : Nat) : natChars n ≠ [] :=
  Nat.toDigits_ne_nil

@[simp] theorem ofDigitChars_natChars (n : Nat) : Nat.ofDigitChars 10 (natChars n) 0 = n :=
  Nat.ofDigitChars_ten_toDigits

@[simp] theorem numeral?_natChars (n : Nat) : numeral? 10 (natChars n) = some n := by
  have nonempty : (natChars n).isEmpty = false := by simp [natChars_ne_nil]
  rw [numeral?, nonempty, numeralFrom_of_digits fun c hc => isDigit_of_mem_natChars hc]
  simp

theorem natChars_injective {m n : Nat} (h : natChars m = natChars n) : m = n := by
  rw [← ofDigitChars_natChars m, h, ofDigitChars_natChars]

/-- Only zero is written with a zero in front. -/
theorem eq_zero_of_natChars {n : Nat} {rest : List Char} (h : natChars n = '0' :: rest) :
    n = 0 := by
  induction n using Nat.strongRecOn generalizing rest with
  | ind n ih =>
      unfold natChars at h ih
      rw [Nat.toDigits_eq_if (by decide)] at h
      split at h
      · exact (show n = 0 ∧ rest = [] by simpa using h).1
      · rename_i large
        -- The first digit is that of the number without its last digit.
        cases higher : Nat.toDigits 10 (n / 10) with
        | nil => exact absurd higher Nat.toDigits_ne_nil
        | cons c cs =>
            rw [higher, List.cons_append, List.cons.injEq] at h
            rw [h.1] at higher
            have := ih (n / 10) (by omega) higher
            omega

/-- A text does not start with a digit. -/
def EndsDigits (rest : List Char) : Prop :=
  ∀ c ∈ rest.head?, isDigit c = false

theorem endsDigits_cons {c : Char} {rest : List Char} (h : isDigit c = false) :
    EndsDigits (c :: rest) := by
  simp [EndsDigits, h]

/-- Digits before a text that does not start with one are all that is read. -/
theorem spanDigits_append {digits rest : List Char} (hd : ∀ c ∈ digits, isDigit c = true)
    (hr : EndsDigits rest) : Json.spanDigits (digits ++ rest) = (digits, rest) := by
  have stop : rest.takeWhile isDigit = [] ∧ rest.dropWhile isDigit = rest := by
    cases rest with
    | nil => simp
    | cons c cs =>
        have : isDigit c = false := hr c (by simp)
        simp [this]
  rw [Json.spanDigits, List.span_eq_takeWhile_dropWhile, List.takeWhile_append_of_pos hd,
    List.dropWhile_append_of_pos hd, stop.1, stop.2, List.append_nil]

end StagedAlgebra.Text
