import StagedAlgebra.Proofs.RowOrder
import StagedAlgebra.Proofs.TextKeys

/-!
# What digests tell apart

The digest of records is the hash of their lines, sorted and put one below the other. As long as
labels fit on lines, the bytes that are hashed are the same for lists with the same records in some
order, each as often as in the other, and for no others. So digests differ where records do, unless
the hash itself has a collision: `Digest.recordBytes_eq_iff`.

## Implementation notes

Lines are never empty and hold no line feed, so cutting the text at its line feeds gives the sorted
lines back, and only the text without lines is empty. Nothing is assumed of the binary numbers,
since distinct ones have distinct texts, the two zeros included.
-/

namespace StagedAlgebra

namespace Text

/-- Between texts that are not empty and do not hold it, a character shows where each one ends. -/
theorem eq_of_intercalate {c : Char} {texts texts' : List (List Char)}
    (h : ∀ t ∈ texts, t ≠ [] ∧ c ∉ t) (h' : ∀ t ∈ texts', t ≠ [] ∧ c ∉ t)
    (equal : [c].intercalate texts = [c].intercalate texts') : texts = texts' := by
  have filled {t : List Char} {rest : List (List Char)} (some_text : t ≠ []) :
      [c].intercalate (t :: rest) ≠ [] := by
    cases rest <;> simp [List.intercalate, some_text]
  cases texts with
  | nil =>
      cases texts' with
      | nil => rfl
      | cons t rest => exact absurd equal.symm (filled (h' t (by simp)).1)
  | cons t rest =>
      cases texts' with
      | nil => exact absurd equal (filled (h t (by simp)).1)
      | cons t' rest' =>
          rw [← List.splitOn_intercalate c (fun u hu => (h u hu).2) (by simp), equal]
          exact List.splitOn_intercalate c (fun u hu => (h' u hu).2) (by simp)

end Text

namespace Record

/-- Records whose labels fit are equal if their lines are. -/
theorem eq_of_lineChars {r s : Record} (fits : FitsLine r.label) (fits' : FitsLine s.label)
    (h : r.lineChars = s.lineChars) : r = s := by
  have cut := Text.splitOnce_append fits.1 (Json.write [] (Tuple.toJson r.tuple))
  rw [← lineChars, h, lineChars, Text.splitOnce_append fits'.1, Option.some.injEq,
    Prod.mk.injEq] at cut
  apply eq_of_text
  · exact String.toList_inj.mp cut.1.symm
  · exact congrArg String.ofList cut.2.symm

theorem toList_line (r : Record) : r.line.toList = r.lineChars := by
  rw [line, String.toList_ofList]

theorem lineChars_ne_nil (r : Record) : r.lineChars ≠ [] := by
  simp [lineChars]

end Record

namespace Digest

/-- The text of records shows their sorted lines. -/
theorem sortedLines_of_recordText {records records' : List Record}
    (fits : ∀ r ∈ records, FitsLine r.label) (fits' : ∀ r ∈ records', FitsLine r.label)
    (h : recordText records = recordText records') :
    (records.map Record.line).mergeSort (fun a b => decide (a ≤ b)) =
      (records'.map Record.line).mergeSort fun a b => decide (a ≤ b) := by
  have lines {records : List Record} (fits : ∀ r ∈ records, FitsLine r.label) :
      ∀ t ∈ ((records.map Record.line).mergeSort fun a b => decide (a ≤ b)).map String.toList,
        t ≠ [] ∧ '\n' ∉ t := by
    intro t member
    simp only [List.mem_map, List.mem_mergeSort] at member
    obtain ⟨_, ⟨r, hr, rfl⟩, rfl⟩ := member
    rw [r.toList_line]
    exact ⟨r.lineChars_ne_nil, Record.not_newline_mem_lineChars (fits r hr)⟩
  have chars := congrArg String.toList h
  rw [recordText, recordText, String.toList_intercalate, String.toList_intercalate] at chars
  have equal := Text.eq_of_intercalate (lines fits) (lines fits') chars
  exact List.map_injective_iff.mpr (fun _ _ => String.toList_inj.mp) equal

/-- Records whose labels fit are the same in some order if their lines are. -/
theorem perm_of_lines_perm {records records' : List Record}
    (fits : ∀ r ∈ records, FitsLine r.label) (fits' : ∀ r ∈ records', FitsLine r.label)
    (h : (records.map Record.line).Perm (records'.map Record.line)) : records.Perm records' := by
  -- Lines tell records apart only among those that fit, so the lists move to the type of these.
  lift records to List { r : Record // FitsLine r.label } using fits
  lift records' to List { r : Record // FitsLine r.label } using fits'
  have injective : Function.Injective fun r : { r : Record // FitsLine r.label } => r.1.line := by
    intro r s equal
    have chars := congrArg String.toList equal
    rw [r.1.toList_line, s.1.toList_line] at chars
    exact Subtype.ext (Record.eq_of_lineChars r.2 s.2 chars)
  rw [List.map_map, List.map_map] at h
  exact ((List.map_perm_map_iff injective).mp h).map _

theorem recordText_eq_of_recordBytes {records records' : List Record}
    (h : recordBytes records = recordBytes records') :
    recordText records = recordText records' := by
  rw [recordBytes, recordBytes, String.toUTF8_eq_toByteArray, String.toUTF8_eq_toByteArray] at h
  exact String.toByteArray_inj.mp h

/-- Different bytes with one hash. -/
def Collision (bytes bytes' : ByteArray) : Prop :=
  bytes ≠ bytes' ∧ ofBytes bytes = ofBytes bytes'

/-- The bytes that are hashed for records whose labels hold neither a tab nor a line feed are the
same exactly for lists of the same records, each as often, in some order. So the digests are the
same exactly for such lists and where the hash has a collision. -/
theorem recordBytes_eq_iff {records records' : List Record}
    (fits : ∀ r ∈ records, '\t' ∉ r.label.toList ∧ '\n' ∉ r.label.toList)
    (fits' : ∀ r ∈ records', '\t' ∉ r.label.toList ∧ '\n' ∉ r.label.toList) :
    (recordBytes records = recordBytes records' ↔ records.Perm records') ∧
      (ofRecords records = ofRecords records' ↔
        records.Perm records' ∨ Collision (recordBytes records) (recordBytes records')) := by
  have bytes : recordBytes records = recordBytes records' ↔ records.Perm records' := by
    constructor
    · intro equal
      have text := recordText_eq_of_recordBytes equal
      have lines := sortedTexts_eq_iff.mp (sortedLines_of_recordText fits fits' text)
      exact perm_of_lines_perm fits fits' lines
    · exact recordBytes_perm
  refine ⟨bytes, ?_⟩
  rw [ofRecords_eq_ofBytes, ofRecords_eq_ofBytes, ← bytes]
  constructor
  · intro equal
    by_cases same : recordBytes records = recordBytes records'
    · exact .inl same
    · exact .inr ⟨same, equal⟩
  · rintro (same | collision)
    · rw [same]
    · exact collision.2

/-- One record comes twice, a text holds a line feed, and the labels do not come in order. A change
of order leaves the bytes as they are, and a change of sign of a zero does not. -/
theorem recordBytes_eq_iff_zeros :
    let zero (negative : Bool) : Record := ⟨"R", .ofList [("R.x", .float (.zero negative))]⟩
    let note : Record := ⟨"", .ofList [("k", .text "a\nR\t\x7b\x7d"), ("", .null)]⟩
    let records := [zero false, note, zero false]
    let turned := [note, zero false, zero false]
    let signed := [zero false, note, zero true]
    (∀ r ∈ records ++ turned ++ signed, '\t' ∉ r.label.toList ∧ '\n' ∉ r.label.toList) ∧
      recordBytes records = recordBytes turned ∧ recordBytes records ≠ recordBytes signed := by
  intro zero note records turned signed
  have fits : ∀ r ∈ records ++ turned ++ signed, '\t' ∉ r.label.toList ∧ '\n' ∉ r.label.toList := by
    decide
  have first : ∀ r ∈ records, '\t' ∉ r.label.toList ∧ '\n' ∉ r.label.toList := fun r hr =>
    fits r (by simp [hr])
  have same : records.Perm turned := by decide
  have other : ¬ records.Perm signed := by decide
  exact ⟨fits, (recordBytes_eq_iff first fun r hr => fits r (by simp [hr])).1.mpr same,
    fun equal => other ((recordBytes_eq_iff first fun r hr => fits r (by simp [hr])).1.mp equal)⟩

end Digest

end StagedAlgebra
