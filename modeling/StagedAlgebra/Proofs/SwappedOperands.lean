import StagedAlgebra.Condition.Evaluation
import StagedAlgebra.Proofs.AttributeTexts
import StagedAlgebra.Proofs.Digits
import StagedAlgebra.Proofs.KeyForms

/-!
# Swapped operands

An equality has the same outcome with its sides swapped, the same truth value or a fault, except
between a text literal and an integer literal. There the literal on the right decides how the two
are compared, by text or by number, and these differ for a text that reads as the integer but is
not how the integer is written, such as `016`: `Condition.holdsIn_swap_iff`.

## Implementation notes

Comparing by text is the stricter of the two, since the text of an integer reads as the integer.
So the only way to disagree is that the number is right and the text is not.
-/

namespace StagedAlgebra

namespace Text

theorem isBlank_of_isDigit {c : Char} (h : isDigit c = true) : isBlank c = false := by
  have bounds : '0' ≤ c ∧ c ≤ '9' := by simpa [isDigit] using h
  have lower : 48 ≤ c.toNat := Char.le_def.mp bounds.1
  have upper : c.toNat ≤ 57 := Char.le_def.mp bounds.2
  simp only [isBlank, Bool.or_eq_false_iff, Bool.and_eq_false_iff, decide_eq_false_iff_not,
    beq_eq_false_iff_ne]
  omega

theorem isBlank_of_mem_intChars {i : Int} {c : Char} (h : c ∈ intChars i) : isBlank c = false := by
  unfold intChars at h
  split at h
  · rcases List.mem_cons.mp h with rfl | digit
    · decide
    · exact isBlank_of_isDigit (isDigit_of_mem_natChars digit)
  · exact isBlank_of_isDigit (isDigit_of_mem_natChars h)

theorem trimChars_intChars (i : Int) : trimChars (intChars i) = intChars i := by
  apply Trimmed.trimChars_eq
  constructor
  · intro c first
    exact isBlank_of_mem_intChars (List.mem_of_mem_head? first)
  · intro c last
    exact isBlank_of_mem_intChars (List.mem_of_mem_getLast? last)

theorem natChars_ne_cons {c : Char} (h : isDigit c = false) (n : Nat) (rest : List Char) :
    natChars n ≠ c :: rest := by
  intro equal
  have digit : isDigit c = true := isDigit_of_mem_natChars (n := n) (by simp [equal])
  rw [h] at digit
  cases digit

/-- Digits have no sign in front of them. -/
theorem intIn?_natChars (n : Nat) :
    intIn? 10 (natChars n) = if inInt64 n then some (n : Int) else none := by
  unfold intIn?
  split
  · rename_i rest equal
    exact absurd equal (natChars_ne_cons (by decide) n rest)
  · rename_i rest equal
    exact absurd equal (natChars_ne_cons (by decide) n rest)
  · rw [numeral?_natChars]
    rfl

theorem intIn?_minus_natChars (n : Nat) :
    intIn? 10 ('-' :: natChars n) = if inInt64 (-n) then some (-n : Int) else none := by
  simp only [intIn?, numeral?_natChars]
  rfl

/-- The text of an integer of 64 bits reads as the integer. -/
theorem intIn?_intChars (i : Int64) : intIn? 10 (intChars i.toInt) = some i.toInt := by
  have fits := inInt64_toInt i
  by_cases negative : i.toInt < 0
  · have value : -(i.toInt.natAbs : Int) = i.toInt := by omega
    rw [intChars, if_pos negative, intIn?_minus_natChars, value, fits, if_pos rfl]
  · have value : (i.toInt.natAbs : Int) = i.toInt := by omega
    rw [intChars, if_neg negative, intIn?_natChars, value, fits, if_pos rfl]

end Text

theorem Binary64.sameNumber_comm (x y : Binary64) : x.sameNumber y = y.sameNumber x := by
  rw [sameNumber, sameNumber, Bool.and_comm]
  congr 1
  exact decide_eq_decide.mpr eq_comm

/-- Attributes are equal in both orders. -/
theorem Scalar.looselyEqual_comm (v w : Scalar) : v.looselyEqual w = w.looselyEqual v := by
  cases v <;> cases w <;> simp only [looselyEqual, eq_comm]
  case float.float x y => exact x.sameNumber_comm y

namespace Literal

/-- One literal is an integer, and the other a text that reads as it but is not how it is written:
there are blanks, a plus sign or zeros too many. -/
def WritesOtherwise : Literal → Literal → Prop
  | .text t, .int i | .int i, .text t =>
    Text.int64? (Text.trim t) = some i.toInt ∧ (Scalar.int i).shown ≠ t
  | _, _ => False

theorem writesOtherwise_comm (l m : Literal) : l.WritesOtherwise m ↔ m.WritesOtherwise l := by
  cases l <;> cases m <;> exact Iff.rfl

/-- The text of an integer, with blanks around it or without, reads as the integer. -/
theorem int64?_trim_shown (i : Int64) :
    Text.int64? (Text.trim (Scalar.int i).shown) = some i.toInt := by
  rw [Text.int64?, Text.toList_trim, Scalar.shown, String.toList_ofList, Text.trimChars_intChars]
  exact Text.intIn?_intChars i

/-- Comparing a text with an integer by number and by text differs for texts that write it
otherwise. -/
theorem matchesLiteral_text_int_iff (t : String) (i : Int64) :
    (Scalar.text t).matchesLiteral (.int i) = (Scalar.int i).matchesLiteral (.text t) ↔
      ¬ (text t).WritesOtherwise (.int i) := by
  have stricter : (Scalar.int i).shown = t → Text.int64? (Text.trim t) = some i.toInt := by
    rintro rfl
    exact int64?_trim_shown i
  simp only [Scalar.matchesLiteral, WritesOtherwise, decide_eq_decide, not_and, not_not]
  exact ⟨fun same => same.mp, fun loose => ⟨loose, stricter⟩⟩

theorem matchesLiteral_swap_iff (l m : Literal) :
    (Scalar.ofLiteral l).matchesLiteral m = (Scalar.ofLiteral m).matchesLiteral l ↔
      ¬ l.WritesOtherwise m := by
  cases l with
  | text t =>
      cases m with
      | text u => simp [Scalar.ofLiteral, Scalar.matchesLiteral, WritesOtherwise, eq_comm]
      | int i => exact matchesLiteral_text_int_iff t i
  | int i =>
      cases m with
      | text t =>
          rw [eq_comm, writesOtherwise_comm]
          exact matchesLiteral_text_int_iff t i
      | int j => simp [Scalar.ofLiteral, Scalar.matchesLiteral, WritesOtherwise, eq_comm]

end Literal

namespace Condition

/-- Two literals one of which is an integer that the other, a text, writes otherwise. -/
def WritesOtherwise : Condition → Condition → Prop
  | .literal l, .literal m => l.WritesOtherwise m
  | _, _ => False

/-- Attributes are compared alike in both orders, also where one of them is not found. -/
theorem equalIn_attr_comm (a b : Attribute) (r : Record) :
    (equalIn r (.attr a) (.attr b)).toOption = (equalIn r (.attr b) (.attr a)).toOption := by
  simp only [equalIn]
  cases r.lookup a with
  | error fault =>
      cases r.lookup b with
      | error fault' => rfl
      | ok f => rfl
  | ok e =>
      cases r.lookup b with
      | error fault => rfl
      | ok f =>
          simp only [Except.map, Except.toOption]
          rw [e.2.looselyEqual_comm]

/-- An equality has the same outcome with its sides swapped, the same truth value or a fault,
exactly unless one side is an integer literal and the other a text literal that writes the integer
otherwise. -/
theorem holdsIn_swap_iff (left right : Condition) (r : Record) :
    (holdsIn r (.equal left right)).toOption = (holdsIn r (.equal right left)).toOption ↔
      ¬ left.WritesOtherwise right := by
  simp only [holdsIn]
  cases left with
  | attr a =>
      cases right with
      | attr b => simp [WritesOtherwise, equalIn_attr_comm]
      | literal _ | equal _ _ | both _ _ => simp [WritesOtherwise, equalIn, Except.toOption]
  | literal l =>
      cases right with
      | literal m =>
          have swapped := Literal.matchesLiteral_swap_iff l m
          simpa [WritesOtherwise, equalIn, Except.toOption] using swapped
      | attr _ | equal _ _ | both _ _ => simp [WritesOtherwise, equalIn, Except.toOption]
  | equal _ _ | both _ _ =>
      cases right with
      | attr _ | literal _ | equal _ _ | both _ _ =>
          simp [WritesOtherwise, equalIn, Except.toOption]

/-- Sixteen with a zero in front equals sixteen, but sixteen does not equal it. -/
theorem equal_padded_not_symmetric :
    let r : Record := ⟨"P", .empty⟩
    let padded : Condition := .literal (.text "016")
    let sixteen : Condition := .literal (.int 16)
    padded.isOperand = true ∧ sixteen.isOperand = true ∧
      holdsIn r (.equal padded sixteen) = .ok true ∧
      holdsIn r (.equal sixteen padded) = .ok false := by
  decide +kernel

end Condition

end StagedAlgebra
