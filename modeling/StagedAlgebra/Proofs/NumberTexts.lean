import StagedAlgebra.Json
import StagedAlgebra.Proofs.Digits

/-!
# Numbers as they are written

A well-formed number text is read back from its characters in front of anything that can follow
a number. Integers and binary numbers are written as well-formed number texts, so what is read
of them is known: `intText` and `floatText`.

## Implementation notes

The characters of a binary number are cut out of a list of digits. The layouts are related to
number texts once, for any decimal; nothing here depends on which decimal stands for a number.
-/

namespace StagedAlgebra

open Text (natChars isDigit EndsDigits)

namespace Json

/-- The characters that can follow a value: a comma, a closing bracket or a blank. -/
def delimiters : List Char :=
  [',', ']', '\x7d', ' ', '\n', '\t', '\r']

/-- What can follow a value: the end or a delimiter. -/
def Delimited (rest : List Char) : Prop :=
  ∀ c ∈ rest.head?, c ∈ delimiters

namespace NumberText

/-- The characters of an exponent. -/
def exponentPart : Option Int → List Char
  | none => []
  | some e => 'e' :: (if e < 0 then '-' else '+') :: natChars e.natAbs

/-- The characters of a fraction. -/
def fractionPart : Option (List Char) → List Char
  | none => []
  | some digits => '.' :: digits

/-- The characters of a number text. -/
def chars (t : NumberText) : List Char :=
  let body := t.whole ++ (fractionPart t.fraction ++ exponentPart t.exponent)
  if t.negative then '-' :: body else body

/-- The parts of a number text are digits, none is empty, and a zero in front stands alone. -/
structure WellFormed (t : NumberText) : Prop where
  whole_digits : ∀ c ∈ t.whole, isDigit c = true
  whole_ne_nil : t.whole ≠ []
  no_leading_zero : ∀ rest, t.whole = '0' :: rest → rest = []
  fraction_digits : ∀ digits ∈ t.fraction, ∀ c ∈ digits, isDigit c = true
  fraction_ne_nil : ∀ digits ∈ t.fraction, digits ≠ []

end NumberText

theorem Delimited.endsDigits {rest : List Char} (h : Delimited rest) : EndsDigits rest := by
  have none_digit : ∀ c ∈ delimiters, isDigit c = false := by simp [delimiters, isDigit]
  exact fun c hc => none_digit c (h c hc)

theorem endsDigits_exponentPart {rest : List Char} (h : Delimited rest) (e : Option Int) :
    EndsDigits (NumberText.exponentPart e ++ rest) := by
  cases e with
  | none => exact h.endsDigits
  | some e => exact Text.endsDigits_cons (by decide)

theorem endsDigits_fractionPart {rest : List Char} (h : Delimited rest) (f : Option (List Char))
    (e : Option Int) :
    EndsDigits (NumberText.fractionPart f ++ (NumberText.exponentPart e ++ rest)) := by
  cases f with
  | none => exact endsDigits_exponentPart h e
  | some digits => exact Text.endsDigits_cons (by decide)

theorem readExponentDigits_natChars (negative : Bool) (n : Nat) {rest : List Char}
    (h : EndsDigits rest) :
    readExponentDigits negative (natChars n ++ rest) =
      some (some (if negative then -(n : Int) else n), rest) := by
  have span : spanDigits (natChars n ++ rest) = (natChars n, rest) :=
    Text.spanDigits_append (fun c hc => Text.isDigit_of_mem_natChars hc) h
  rw [readExponentDigits, span]
  dsimp only
  rw [Text.numeral?_natChars]
  rfl

theorem readExponent_exponentPart {rest : List Char} (h : Delimited rest) (e : Option Int) :
    readExponent (NumberText.exponentPart e ++ rest) = some (e, rest) := by
  cases e with
  | none =>
      cases rest with
      | nil => rfl
      | cons c cs =>
          have none_letter : ∀ c ∈ delimiters, ¬(c = 'e' ∨ c = 'E') := by simp [delimiters]
          have other := none_letter c (h c (by simp))
          simp [NumberText.exponentPart, readExponent, other]
  | some e =>
      have digits (negative : Bool) :=
        readExponentDigits_natChars negative e.natAbs h.endsDigits
      by_cases negative : e < 0
      · have read : readExponentDigits true (natChars e.natAbs ++ rest) = some (some e, rest) := by
          rw [digits, if_pos rfl, show -(e.natAbs : Int) = e by omega]
        simp [NumberText.exponentPart, readExponent, negative, read]
      · have read : readExponentDigits false (natChars e.natAbs ++ rest) = some (some e, rest) := by
          rw [digits, if_neg (by decide), show (e.natAbs : Int) = e by omega]
        simp only [NumberText.exponentPart, readExponent, negative, List.cons_append]
        simp [read]

theorem readFraction_fractionPart {rest : List Char} (h : Delimited rest)
    {f : Option (List Char)} (e : Option Int) (digits : ∀ ds ∈ f, ∀ c ∈ ds, isDigit c = true)
    (nonempty : ∀ ds ∈ f, ds ≠ []) :
    readFraction (NumberText.fractionPart f ++ (NumberText.exponentPart e ++ rest)) =
      some (f, NumberText.exponentPart e ++ rest) := by
  cases f with
  | none =>
      cases e with
      | none =>
          cases rest with
          | nil => rfl
          | cons c cs =>
              have none_point : ∀ c ∈ delimiters, c ≠ '.' := by simp [delimiters]
              have other := none_point c (h c (by simp))
              simp only [NumberText.fractionPart, NumberText.exponentPart, List.nil_append]
              unfold readFraction
              split
              · rename_i heq
                exact absurd (List.cons.inj heq).1 other
              · rfl
      | some e => rfl
  | some ds =>
      have span := Text.spanDigits_append (digits ds rfl) (endsDigits_exponentPart h e)
      have filled : ds.isEmpty = false := by simp [nonempty ds rfl]
      simp [NumberText.fractionPart, readFraction, span, filled]

theorem readUnsigned_parts {t : NumberText} (wf : t.WellFormed) {rest : List Char}
    (h : Delimited rest) :
    readUnsigned t.negative (t.whole ++ (NumberText.fractionPart t.fraction ++
      (NumberText.exponentPart t.exponent ++ rest))) = some (t, rest) := by
  have span := Text.spanDigits_append wf.whole_digits
    (endsDigits_fractionPart h t.fraction t.exponent)
  have fraction := readFraction_fractionPart h t.exponent wf.fraction_digits wf.fraction_ne_nil
  have exponent := readExponent_exponentPart h t.exponent
  rw [readUnsigned, span]
  dsimp only
  split
  · rename_i empty
    exact absurd empty wf.whole_ne_nil
  · rename_i heq
    exact absurd (wf.no_leading_zero _ heq) (by simp)
  · rw [fraction]
    dsimp only
    rw [exponent]

/-- A well-formed number text is read back from its characters. -/
theorem readNumber_chars {t : NumberText} (wf : t.WellFormed) {rest : List Char}
    (h : Delimited rest) : readNumber (t.chars ++ rest) = some (t, rest) := by
  have parts := readUnsigned_parts wf h
  cases negative : t.negative with
  | true => simpa [NumberText.chars, negative, readNumber] using parts
  | false =>
      rw [negative] at parts
      simp only [NumberText.chars, negative, Bool.false_eq_true, if_false, List.append_assoc]
      unfold readNumber
      split
      · rename_i heq
        cases whole : t.whole with
        | nil => exact absurd whole wf.whole_ne_nil
        | cons c cs =>
            -- The first character is a digit, so it is no sign.
            have digit := wf.whole_digits c (by simp [whole])
            simp only [whole, List.cons_append, List.cons.injEq] at heq
            rw [heq.1] at digit
            exact absurd digit (by decide)
      · exact parts

/-- The text of an integer. -/
def intText (i : Int) : NumberText :=
  ⟨decide (i < 0), natChars i.natAbs, none, none⟩

theorem wellFormed_natChars (n : Nat) :
    (∀ c ∈ natChars n, isDigit c = true) ∧ ∀ rest, natChars n = '0' :: rest → rest = [] := by
  refine ⟨fun c hc => Text.isDigit_of_mem_natChars hc, fun rest h => ?_⟩
  have zero := Text.eq_zero_of_natChars h
  rw [zero] at h
  exact (List.cons.inj h).2.symm

theorem wellFormed_intText (i : Int) : (intText i).WellFormed where
  whole_digits := (wellFormed_natChars _).1
  whole_ne_nil := Text.natChars_ne_nil _
  no_leading_zero := (wellFormed_natChars _).2
  fraction_digits := by simp [intText]
  fraction_ne_nil := by simp [intText]

theorem chars_intText (i : Int) : (intText i).chars = Text.intChars i := by
  simp only [NumberText.chars, intText, Text.intChars, NumberText.fractionPart,
    NumberText.exponentPart, List.append_nil, decide_eq_true_eq]

/-- The text of a decimal around its point. -/
def positionalText (negative : Bool) (d : ScaledDecimal) : NumberText :=
  if 0 ≤ d.exponent then
    ⟨negative,
      natChars d.digits ++ List.replicate (if d.digits = 0 then 0 else d.exponent.toNat) '0',
      some ['0'], none⟩
  else
    let places := d.exponent.natAbs
    let padded := Text.padLeft '0' (places + 1) (natChars d.digits)
    ⟨negative, padded.take (padded.length - places), some (padded.drop (padded.length - places)),
      none⟩

/-- The text of a decimal with one digit before the point. -/
def exponentText (negative : Bool) (d : ScaledDecimal) : NumberText :=
  let digits := natChars d.digits
  ⟨negative, digits.take 1, if digits.length = 1 then none else some (digits.drop 1),
    some (d.exponent + (digits.length : Int) - 1)⟩

/-- The text of a binary number in data files. -/
def floatText (x : Binary64) : NumberText :=
  let d := x.shortest .toEven
  let leading := d.exponent + ((natChars d.digits).length : Int) - 1
  if NumberLayout.exchange.positional leading then positionalText x.negative d
  else exponentText x.negative d

theorem isDigit_of_mem_replicate {n : Nat} {c : Char} (h : c ∈ List.replicate n '0') :
    isDigit c = true := by
  rw [List.eq_of_mem_replicate h]
  decide

theorem isDigit_of_mem_padLeft {width n : Nat} {c : Char}
    (h : c ∈ Text.padLeft '0' width (natChars n)) : isDigit c = true := by
  rw [Text.padLeft, List.mem_append] at h
  rcases h with h | h
  · exact isDigit_of_mem_replicate h
  · exact Text.isDigit_of_mem_natChars h

theorem lt_length_padLeft (places n : Nat) :
    places < (Text.padLeft '0' (places + 1) (natChars n)).length := by
  simp only [Text.padLeft, List.length_append, List.length_replicate]
  omega

/-- Digits before a point do not start with a zero, unless it stands alone: the digits are either
those of a number, or one of them is left after padding. -/
theorem eq_nil_of_take_padLeft {places n : Nat} {rest : List Char}
    (h : (Text.padLeft '0' (places + 1) (natChars n)).take
      ((Text.padLeft '0' (places + 1) (natChars n)).length - places) = '0' :: rest) :
    rest = [] := by
  by_cases short : (natChars n).length ≤ places
  · have one : (Text.padLeft '0' (places + 1) (natChars n)).length - places = 1 := by
      simp only [Text.padLeft, List.length_append, List.length_replicate]
      omega
    have length := congrArg List.length h
    simp only [one, List.length_take, List.length_cons] at length
    exact List.length_eq_zero_iff.mp (by omega)
  · have bare : Text.padLeft '0' (places + 1) (natChars n) = natChars n := by
      have : places + 1 - (natChars n).length = 0 := by omega
      simp [Text.padLeft, this]
    rw [bare] at h
    cases first : natChars n with
    | nil => exact absurd first (Text.natChars_ne_nil _)
    | cons c cs =>
        have count : (natChars n).length - places = ((natChars n).length - places - 1) + 1 := by
          omega
        rw [count, first, List.take_succ_cons, List.cons.injEq] at h
        rw [h.1] at first
        have alone := (wellFormed_natChars _).2 cs first
        simp [← h.2, alone]

theorem wellFormed_positionalText (negative : Bool) (d : ScaledDecimal) :
    (positionalText negative d).WellFormed := by
  unfold positionalText
  split
  · constructor
    · intro c hc
      rw [List.mem_append] at hc
      rcases hc with hc | hc
      · exact Text.isDigit_of_mem_natChars hc
      · exact isDigit_of_mem_replicate hc
    · simp [Text.natChars_ne_nil]
    · intro rest h
      cases first : natChars d.digits with
      | nil => exact absurd first (Text.natChars_ne_nil _)
      | cons c cs =>
          rw [first, List.cons_append, List.cons.injEq] at h
          rw [h.1] at first
          have zero := Text.eq_zero_of_natChars first
          have alone := (wellFormed_natChars _).2 cs first
          simp [← h.2, zero, alone]
    · simp
      decide
    · simp
  · have long := lt_length_padLeft d.exponent.natAbs d.digits
    constructor
    · exact fun c hc => isDigit_of_mem_padLeft (List.mem_of_mem_take hc)
    · simp only [ne_eq, List.take_eq_nil_iff, not_or]
      refine ⟨by omega, fun h => ?_⟩
      simp [h] at long
    · exact fun rest h => eq_nil_of_take_padLeft h
    · simp only [Option.mem_def, Option.some.injEq, forall_eq']
      exact fun c hc => isDigit_of_mem_padLeft (List.mem_of_mem_drop hc)
    · simp only [Option.mem_def, Option.some.injEq, forall_eq', ne_eq, List.drop_eq_nil_iff]
      omega

theorem wellFormed_exponentText (negative : Bool) (d : ScaledDecimal) :
    (exponentText negative d).WellFormed := by
  have nonempty := Text.natChars_ne_nil d.digits
  constructor
  · exact fun c hc => Text.isDigit_of_mem_natChars (List.mem_of_mem_take hc)
  · simp [exponentText, nonempty]
  · intro rest h
    have length := congrArg List.length h
    simp only [exponentText, List.length_take, List.length_cons] at length
    exact List.length_eq_zero_iff.mp (by omega)
  · intro digits h c hc
    simp only [exponentText, Option.mem_def] at h
    split at h
    · cases h
    · rw [← Option.some.inj h] at hc
      exact Text.isDigit_of_mem_natChars (List.mem_of_mem_drop hc)
  · intro digits h
    simp only [exponentText, Option.mem_def] at h
    split at h
    · cases h
    · rename_i several
      have : (natChars d.digits).length ≠ 0 := by simpa using nonempty
      rw [← Option.some.inj h, ne_eq, List.drop_eq_nil_iff]
      omega

theorem wellFormed_floatText (x : Binary64) : (floatText x).WellFormed := by
  unfold floatText
  dsimp only
  split
  · exact wellFormed_positionalText ..
  · exact wellFormed_exponentText ..

theorem chars_positionalText (negative : Bool) (d : ScaledDecimal) :
    (positionalText negative d).chars =
      if negative then '-' :: NumberLayout.positionalChars true d
      else NumberLayout.positionalChars true d := by
  unfold positionalText NumberLayout.positionalChars
  split <;> simp [NumberText.chars, NumberText.fractionPart, NumberText.exponentPart]

theorem chars_exponentText (negative : Bool) (d : ScaledDecimal) :
    (exponentText negative d).chars =
      if negative then '-' :: NumberLayout.exponentChars d else NumberLayout.exponentChars d := by
  unfold exponentText NumberLayout.exponentChars
  cases digits : natChars d.digits with
  | nil => exact absurd digits (Text.natChars_ne_nil _)
  | cons first rest =>
      cases rest <;>
        simp [NumberText.chars, NumberText.fractionPart, NumberText.exponentPart]

theorem chars_floatText (x : Binary64) : (floatText x).chars = NumberLayout.exchange.chars x := by
  unfold floatText NumberLayout.chars
  have tie : NumberLayout.exchange.tie = .toEven := rfl
  have zero : NumberLayout.exchange.pointZero = true := rfl
  simp only [tie, zero]
  split
  · exact chars_positionalText ..
  · exact chars_exponentText ..

end Json

end StagedAlgebra
