import StagedAlgebra.Proofs.FloatTexts
import StagedAlgebra.Proofs.RecordCodec

/-!
# Which record files are read back

Of all that a record can hold, only two things keep a file of records from being read back: a label
with a tab or a line feed in it, and a binary number that is not read from its own text. Keys and
texts may hold any characters, since JSON escapes those that would end a line.

What is read from any file has labels that fit on lines. So a file is read back exactly if all
labels fit (`decodeRecords_encodeRecords_iff`), and what was read once can be written and read again.
-/

namespace StagedAlgebra

open Json (written writtenFields)

theorem Json.int?_floatText (x : Binary64) : (floatText x).int? = none := by
  have marked := floatText_marked x
  unfold NumberText.int?
  split
  · simp_all
  · rfl

/-- A number is read back if it is the binary number that its text is read as. -/
theorem Binary64.readsBack_iff {x : Binary64} :
    x.ReadsBack ↔ (Json.floatText x).float? = some x := by
  simp [ReadsBack, Json.parse, Json.parseWithin, Json.parse_compact, written, Json.Written.value?,
    Json.NumberText.value?, Json.int?_floatText]

theorem Scalar.readsBack_of_value? {v : Scalar} {j : Json} {level : Nat}
    (value : v.toJson.written.value? level = some j) (read : ofJson? j = some v) : v.ReadsBack := by
  cases v with
  | null | bool _ | int _ | text _ => trivial
  | float x =>
      simp only [toJson, written, Json.Written.value?, Json.NumberText.value?, Json.int?_floatText]
        at value
      obtain ⟨y, number, rfl⟩ := Option.map_eq_some_iff.mp value
      obtain rfl : y = x := by simpa [ofJson?] using read
      exact Binary64.readsBack_iff.mpr number

theorem Json.readsBack_of_fieldsOf? {entries : List (String × Scalar)}
    {fields : List (String × Json)} {level : Nat}
    (values : Written.fieldsOf? level
      (writtenFields (entries.map fun (key, value) => (key, value.toJson))) = some fields)
    (read : fields.mapM Tuple.entryOfJson? = some entries) : ∀ e ∈ entries, e.2.ReadsBack := by
  induction entries generalizing fields with
  | nil => simp
  | cons e rest ih =>
      rw [List.map_cons, writtenFields] at values
      cases value : e.2.toJson.written.value? level with
      | none => simp [Written.fieldsOf?, value] at values
      | some first =>
          simp only [Written.fieldsOf?, value] at values
          obtain ⟨others, more, rfl⟩ := Option.map_eq_some_iff.mp values
          rw [List.mapM_cons] at read
          obtain ⟨entry, head, tail⟩ := Option.bind_eq_some_iff.mp read
          obtain ⟨entries, all, same⟩ := Option.bind_eq_some_iff.mp tail
          obtain ⟨rfl, rfl⟩ := List.cons.inj (Option.some.inj same)
          obtain ⟨scalar, known, equal⟩ := Option.map_eq_some_iff.mp head
          have scalar_eq : scalar = entry.2 := congrArg Prod.snd equal
          intro other member
          rcases List.mem_cons.mp member with rfl | member
          · exact Scalar.readsBack_of_value? value (scalar_eq ▸ known)
          · exact ih more all other member

/-- A list of entries with the keys of a table makes up a table of just these entries. -/
theorem Table.entries_ofList {β : Type u} {entries : List (String × β)}
    (h : Ascending entries) : (ofList entries).entries = entries :=
  congrArg Table.entries (ofList_entries ⟨entries, h⟩)

/-- The binary numbers of a tuple that is read from its text are read back. -/
theorem Tuple.readsBack_of_parse_text {t : Tuple}
    (h : (Json.parse t.text).bind ofJson? = some t) : ∀ e ∈ t.entries, e.2.ReadsBack := by
  have deep : Json.nestingLimit ≠ 0 := by decide
  simp only [Json.parse, Json.parseWithin, text, Json.parse_compact, Option.bind_some, toJson,
    written, Json.Written.value?, deep, if_false] at h
  obtain ⟨j, read, made⟩ := Option.bind_eq_some_iff.mp h
  obtain ⟨fields, values, rfl⟩ := Option.map_eq_some_iff.mp read
  obtain ⟨entries, all, same⟩ := Option.map_eq_some_iff.mp made
  have keys : entries.map (·.1) = t.keys := by
    rw [map_fst_of_mapM all, Json.map_fst_of_fieldsOf? values, List.map_map]
    rfl
  have ascending : Ascending entries := by
    rw [Ascending, ← List.pairwise_map, keys]
    exact t.keys_pairwise
  have entries_eq : t.entries = entries := by
    rw [← same, Table.entries_ofList ascending]
  rw [entries_eq] at values ⊢
  exact Json.readsBack_of_fieldsOf? values all

/-- A record whose label fits is the record of its line exactly if its numbers are read back. -/
theorem Record.parseChars_lineChars_iff {r : Record} (fits : FitsLine r.label) :
    parseChars r.lineChars = .ok r ↔ r.ReadsBack := by
  constructor
  · intro h
    simp only [parseChars, lineChars, Text.splitOnce_append fits.1] at h
    split at h
    · rename_i tuple read
      obtain rfl : tuple = r.tuple := congrArg Record.tuple (Except.ok.inj h)
      exact Tuple.readsBack_of_parse_text read
    · cases h
  · exact parseChars_lineChars fits

/-- A file is read back exactly if all labels fit on lines and all binary numbers are read back. -/
theorem decodeRecords_encodeRecords_self_iff (path : String) (records : List Record) :
    decodeRecords path (encodeRecords records) = .ok records ↔
      (∀ r ∈ records, FitsLine r.label) ∧ ∀ r ∈ records, r.ReadsBack := by
  constructor
  · intro h
    have fits := fitsLine_of_decodeRecords h
    rw [decodeRecords_encodeRecords_eq_ok_iff fits, List.forall₂_same] at h
    exact ⟨fits, fun r hr => (Record.parseChars_lineChars_iff (fits r hr)).mp (h r hr)⟩
  · rintro ⟨fits, back⟩
    exact decodeRecords_encodeRecords path fits back

/-- Records with binary numbers that are read back are read from their file exactly if no label
holds a tab or a line feed, which is so in particular if they were read from some file. -/
theorem decodeRecords_encodeRecords_iff (path : String) (records : List Record)
    (back : ∀ r ∈ records, r.ReadsBack) :
    (decodeRecords path (encodeRecords records) = .ok records ↔
        ∀ r ∈ records, '\t' ∉ r.label.toList ∧ '\n' ∉ r.label.toList) ∧
      ∀ source content, decodeRecords source content = .ok records →
        decodeRecords path (encodeRecords records) = .ok records := by
  have labels : decodeRecords path (encodeRecords records) = .ok records ↔
      ∀ r ∈ records, FitsLine r.label := by
    rw [decodeRecords_encodeRecords_self_iff]
    exact and_iff_left back
  exact ⟨labels, fun _ _ decoded => labels.mpr (fitsLine_of_decodeRecords decoded)⟩

/-- Keys and texts hold quotes, tabs and line ends, a label a carriage return, and there is a binary
number. -/
theorem decodeRecords_encodeRecords_escapes :
    let half : Binary64 := ⟨true, leastMantissa, 1021, by decide⟩
    let records : List Record := [
      ⟨"a\r", Table.ofList [("k\t\"", .text "x\n\\\x07é"), ("", .null), ("z", .int (-1))]⟩,
      ⟨"", Table.ofList [("half", .float half)]⟩]
    (∀ r ∈ records, r.ReadsBack) ∧ decodeRecords "R.json" (encodeRecords records) = .ok records := by
  intro half records
  have number : half.ReadsBack := Binary64.readsBack_iff.mpr (by decide +kernel)
  have back : ∀ r ∈ records, r.ReadsBack := by
    have values : ∀ r ∈ records, ∀ e ∈ r.tuple.entries,
        e.2 ∈ [.text "x\n\\\x07é", .null, .int (-1), .float half] := by
      decide
    have each : ∀ v ∈ [Scalar.text "x\n\\\x07é", .null, .int (-1), .float half],
        v.ReadsBack := by
      simp [Scalar.ReadsBack, number]
    exact fun r hr e he => each e.2 (values r hr e he)
  exact ⟨back, (decodeRecords_encodeRecords_iff "R.json" records back).1.mpr (by decide)⟩

-- A label that does not fit need not be noticed: a tab at its end is lost, and a line feed in it may
-- end the line of another record.
example : decodeRecords "R.json" (encodeRecords [⟨"a\t", .empty⟩, ⟨"b\t\x7b\x7d\nc", .empty⟩]) =
    .ok [⟨"a", .empty⟩, ⟨"b", .empty⟩, ⟨"c", .empty⟩] := by
  decide +kernel

end StagedAlgebra
