import StagedAlgebra.Record.File
import StagedAlgebra.Proofs.JsonReading
import StagedAlgebra.Proofs.KeyForms
import StagedAlgebra.Proofs.Names
import StagedAlgebra.Proofs.Outcomes
import StagedAlgebra.Proofs.Tables

/-!
# Record files are read back

A record whose label fits on a line and whose binary numbers read back is the record of its own
line, and a file of such records holds exactly them, in order.

## Implementation notes

Reading a binary number rounds more than once, so not every number is read back from its text;
`Binary64.ReadsBack` says that one is. Everything else is read back without condition.
-/

namespace StagedAlgebra

open Json (written writtenFields)

/-- A number is read from its text in data files. -/
def Binary64.ReadsBack (x : Binary64) : Prop :=
  Json.parse (Json.float x).compact = some (.float x)

/-- A scalar is read from its text in data files. -/
def Scalar.ReadsBack : Scalar → Prop
  | .float x => x.ReadsBack
  | _ => True

/-- The binary numbers of a record are read back. -/
def Record.ReadsBack (r : Record) : Prop :=
  ∀ e ∈ r.tuple.entries, e.2.ReadsBack

/-- A label that ends neither with a line nor with itself. -/
def FitsLine (label : String) : Prop :=
  '\t' ∉ label.toList ∧ '\n' ∉ label.toList

instance (label : String) : Decidable (FitsLine label) :=
  inferInstanceAs (Decidable (_ ∧ _))

/-- Records without binary numbers are read back. -/
theorem readsBack_of_no_float {records : List Record}
    (h : ∀ r ∈ records, ∀ e ∈ r.tuple.entries, (e.2 matches .float _) = false) :
    ∀ r ∈ records, r.ReadsBack := by
  intro r hr e he
  have other := h r hr e he
  revert other
  cases e.2 <;> simp [Scalar.ReadsBack]

theorem Scalar.value?_toJson {v : Scalar} (h : v.ReadsBack) (level : Nat) :
    (v.toJson.written).value? level = some v.toJson := by
  cases v with
  | null => simp [toJson, written, Json.Written.value?]
  | bool b => simp [toJson, written, Json.Written.value?]
  | int i =>
      simp only [toJson, written, Json.Written.value?]
      exact Json.value?_intText (Json.fitsWord_int64 i)
  | float x =>
      have read : Json.parse (Json.float x).compact = some (.float x) := h
      simp only [Json.parse, Json.parseWithin, Json.parse_compact, Option.bind_some, written,
        Json.Written.value?] at read
      simpa only [toJson, written, Json.Written.value?] using read
  | text s => simp [toJson, written, Json.Written.value?]

theorem Scalar.ofJson?_toJson (v : Scalar) : ofJson? v.toJson = some v := by
  cases v with
  | int i => simp [toJson, ofJson?, Text.inInt64_toInt]
  | _ => rfl

theorem Json.fieldsOf?_scalars {entries : List (String × Scalar)}
    (h : ∀ e ∈ entries, e.2.ReadsBack) (level : Nat) :
    Written.fieldsOf? level (writtenFields (entries.map fun (key, value) => (key, value.toJson))) =
      some (entries.map fun (key, value) => (key, value.toJson)) := by
  induction entries with
  | nil => simp [writtenFields, Written.fieldsOf?]
  | cons e rest ih =>
      have first := Scalar.value?_toJson (h e (by simp)) level
      have others := ih fun e he => h e (by simp [he])
      simp only [List.map_cons, writtenFields, Written.fieldsOf?, first, others, Option.map_some]

theorem Tuple.parse_text {t : Tuple} (h : ∀ e ∈ t.entries, e.2.ReadsBack) :
    Json.parse t.text = some t.toJson := by
  have fields := Json.fieldsOf?_scalars h (Json.nestingLimit - 1)
  have deep : Json.nestingLimit ≠ 0 := by decide
  simp only [Json.parse, Json.parseWithin, text, Json.parse_compact, Option.bind_some, toJson,
    written, Json.Written.value?, deep, if_false, fields, Option.map_some]

theorem Tuple.mapM_entryOfJson? (entries : List (String × Scalar)) :
    (entries.map fun (key, value) => (key, value.toJson)).mapM entryOfJson? = some entries := by
  induction entries with
  | nil => rfl
  | cons e rest ih =>
      have first : entryOfJson? (e.1, e.2.toJson) = some e := by
        simp [entryOfJson?, Scalar.ofJson?_toJson]
      rw [List.map_cons, List.mapM_cons, first, ih]
      rfl

theorem Tuple.ofJson?_toJson (t : Tuple) : ofJson? t.toJson = some t := by
  simp only [toJson, ofJson?, mapM_entryOfJson?, Option.map_some, Table.ofList_entries]

/-- A record is the record of its line. -/
theorem Record.parseChars_lineChars {r : Record} (fits : FitsLine r.label) (h : r.ReadsBack) :
    parseChars r.lineChars = .ok r := by
  have tuple := Tuple.parse_text h
  simp only [Tuple.text, Json.compact] at tuple
  simp only [parseChars, lineChars, Text.splitOnce_append fits.1, tuple, Option.bind_some,
    Tuple.ofJson?_toJson, String.ofList_toList]

theorem Record.not_newline_mem_lineChars {r : Record} (fits : FitsLine r.label) :
    '\n' ∉ r.lineChars := by
  obtain ⟨front, -, printable, chars⟩ := Json.exists_front (Tuple.toJson r.tuple)
  rw [lineChars, chars, List.mem_append, List.mem_cons]
  rintro (inside | tab | inside)
  · exact fits.2 inside
  · revert tab
    decide
  · rw [List.append_nil] at inside
    exact absurd (printable _ inside) (by decide)

/-- A line ends with the closing brace of its tuple. -/
theorem Record.exists_lineChars (r : Record) : ∃ front, r.lineChars = front ++ ['\x7d'] := by
  obtain ⟨front, chars⟩ := Json.exists_object (r.tuple.entries.map fun (k, v) => (k, v.toJson))
  refine ⟨r.label.toList ++ '\t' :: front, ?_⟩
  rw [lineChars, Tuple.toJson, chars]
  simp

theorem Record.not_blank_lineChars (r : Record) : r.lineChars.all Text.isBlank = false := by
  obtain ⟨front, last⟩ := r.exists_lineChars
  rw [last, List.all_append]
  simp [Text.isBlank]

theorem Text.linesFrom_append {line : List Char} (h : '\n' ∉ line) (done rest : List Char) :
    linesFrom done (line ++ rest) = linesFrom (line.reverse ++ done) rest := by
  induction line generalizing done with
  | nil => rfl
  | cons c cs ih =>
      rw [List.mem_cons, not_or] at h
      rw [List.cons_append, linesFrom, if_neg (Ne.symm h.1), ih h.2]
      simp

/-- The lines of a record file are the lines of its records. -/
theorem lines_recordFileChars {records : List Record} (fits : ∀ r ∈ records, FitsLine r.label) :
    Text.lines (recordFileChars records) = records.map Record.lineChars := by
  induction records with
  | nil => rfl
  | cons r rest ih =>
      have newline := Record.not_newline_mem_lineChars (fits r (by simp))
      have others := ih fun r hr => fits r (by simp [hr])
      obtain ⟨front, last⟩ := r.exists_lineChars
      -- The brace at its end keeps a line apart from a carriage return.
      have closed : Text.closeLine (r.lineChars.reverse ++ []) = r.lineChars := by
        rw [last]
        simp [Text.closeLine]
      unfold Text.lines at others ⊢
      rw [recordFileChars, Text.linesFrom_append newline, Text.linesFrom, if_pos rfl, closed,
        others, List.map_cons]

/-- Lines of records are read one by one. -/
theorem decodeLines_lineChars_eq_ok_iff {records read : List Record} {path : String} {start : Nat} :
    decodeLines path (((records.map Record.lineChars).zipIdx start).map
        fun (line, number) => (number, line)) = .ok read ↔
      List.Forall₂ (fun r s => Record.parseChars r.lineChars = .ok s) records read := by
  induction records generalizing start read with
  | nil =>
      rw [List.forall₂_nil_left_iff]
      simp [decodeLines, eq_comm]
  | cons r rest ih =>
      rw [List.forall₂_cons_left_iff]
      simp only [List.map_cons, List.zipIdx_cons, decodeLines, r.not_blank_lineChars,
        Bool.false_eq_true, if_false]
      cases Record.parseChars r.lineChars with
      | error fault => simp
      | ok s =>
          simp only [map_eq_ok_iff, ih, Except.ok.injEq]
          constructor
          · rintro ⟨others, more, rfl⟩
            exact ⟨s, others, rfl, more, rfl⟩
          · rintro ⟨_, others, rfl, more, rfl⟩
            exact ⟨others, more, rfl⟩

theorem fromUTF8?_toUTF8 (s : String) : String.fromUTF8? s.toUTF8 = some s := by
  rw [String.fromUTF8?, String.toUTF8_eq_toByteArray, dif_pos s.isValidUTF8]
  rfl

/-- A file of records that fit on lines is read record by record. -/
theorem decodeRecords_encodeRecords_eq_ok_iff {records read : List Record} {path : String}
    (fits : ∀ r ∈ records, FitsLine r.label) :
    decodeRecords path (encodeRecords records) = .ok read ↔
      List.Forall₂ (fun r s => Record.parseChars r.lineChars = .ok s) records read := by
  rw [decodeRecords, encodeRecords, fromUTF8?_toUTF8]
  dsimp only
  rw [String.toList_ofList, Text.numberedLines, lines_recordFileChars fits]
  exact decodeLines_lineChars_eq_ok_iff

/-- A file of records that fit on lines is read back. -/
theorem decodeRecords_encodeRecords {records : List Record} (path : String)
    (fits : ∀ r ∈ records, FitsLine r.label) (h : ∀ r ∈ records, r.ReadsBack) :
    decodeRecords path (encodeRecords records) = .ok records := by
  rw [decodeRecords_encodeRecords_eq_ok_iff fits, List.forall₂_same]
  exact fun r hr => Record.parseChars_lineChars (fits r hr) (h r hr)

theorem Json.map_fst_of_fieldsOf? {fields read : List (String × Json)} {level : Nat}
    (h : Written.fieldsOf? level (writtenFields fields) = some read) :
    read.map (·.1) = fields.map (·.1) := by
  induction fields generalizing read with
  | nil =>
      simp only [writtenFields, Written.fieldsOf?, Option.some.injEq] at h
      rw [← h]
  | cons field rest ih =>
      cases value : field.2.written.value? level with
      | none => simp [writtenFields, Written.fieldsOf?, value] at h
      | some first =>
          simp only [writtenFields, Written.fieldsOf?, value] at h
          obtain ⟨others, more, rfl⟩ := Option.map_eq_some_iff.mp h
          rw [List.map_cons, List.map_cons, ih more]

theorem Tuple.map_fst_of_mapM {fields : List (String × Json)} {entries : List (String × Scalar)}
    (h : fields.mapM entryOfJson? = some entries) : entries.map (·.1) = fields.map (·.1) := by
  induction fields generalizing entries with
  | nil =>
      cases h
      rfl
  | cons field rest ih =>
      rw [List.mapM_cons] at h
      obtain ⟨e, first, more⟩ := Option.bind_eq_some_iff.mp h
      obtain ⟨others, read, equal⟩ := Option.bind_eq_some_iff.mp more
      cases equal
      obtain ⟨value, -, rfl⟩ := Option.map_eq_some_iff.mp first
      rw [List.map_cons, List.map_cons, ih read]

/-- What is read from the text of a tuple has its keys, whatever became of its numbers. -/
theorem Tuple.keys_of_parse_text {t u : Tuple} (h : (Json.parse t.text).bind ofJson? = some u) :
    u.keys = t.keys := by
  have deep : Json.nestingLimit ≠ 0 := by decide
  simp only [Json.parse, Json.parseWithin, text, Json.parse_compact, Option.bind_some, toJson,
    written, Json.Written.value?, deep, if_false] at h
  obtain ⟨j, read, made⟩ := Option.bind_eq_some_iff.mp h
  obtain ⟨fields, names, rfl⟩ := Option.map_eq_some_iff.mp read
  obtain ⟨entries, all, rfl⟩ := Option.map_eq_some_iff.mp made
  have same : entries.map (·.1) = t.keys := by
    rw [map_fst_of_mapM all, Json.map_fst_of_fieldsOf? names, List.map_map]
    rfl
  refine Table.keys_eq_iff.mpr fun key => ?_
  rw [Table.mem_keys_ofList, same]

theorem Record.keys_of_parseChars_lineChars {r s : Record} (fits : FitsLine r.label)
    (h : parseChars r.lineChars = .ok s) : s.label = r.label ∧ s.tuple.keys = r.tuple.keys := by
  simp only [parseChars, lineChars, Text.splitOnce_append fits.1] at h
  split at h
  · rename_i tuple read
    cases h
    exact ⟨String.ofList_toList, Tuple.keys_of_parse_text read⟩
  · cases h

/-- What is read from a file of records has the label and the keys of one of them. -/
theorem exists_of_mem_decodeRecords {records read : List Record} {path : String}
    (fits : ∀ r ∈ records, FitsLine r.label)
    (h : decodeRecords path (encodeRecords records) = .ok read) {s : Record} (hs : s ∈ read) :
    ∃ r ∈ records, s.label = r.label ∧ s.tuple.keys = r.tuple.keys := by
  rw [decodeRecords_encodeRecords_eq_ok_iff fits] at h
  obtain ⟨r, hr, line⟩ := exists_of_forall₂_of_mem h.flip hs
  exact ⟨r, hr, Record.keys_of_parseChars_lineChars (fits r hr) line⟩

theorem Text.mem_of_mem_closeLine {reversed : List Char} {c : Char} (h : c ∈ closeLine reversed) :
    c ∈ reversed := by
  unfold closeLine at h
  split at h
  · exact List.mem_cons_of_mem _ (List.mem_reverse.mp h)
  · exact List.mem_reverse.mp h

theorem Text.newline_not_mem_of_mem_linesFrom {reversed cs line : List Char}
    (h : '\n' ∉ reversed) (hline : line ∈ linesFrom reversed cs) : '\n' ∉ line := by
  induction cs generalizing reversed with
  | nil =>
      unfold linesFrom at hline
      split at hline
      · cases hline
      · rw [List.mem_singleton] at hline
        simpa [hline] using h
  | cons c rest ih =>
      unfold linesFrom at hline
      split at hline
      · rcases List.mem_cons.mp hline with rfl | hline
        · exact fun inside => h (mem_of_mem_closeLine inside)
        · exact ih (by simp) hline
      · rename_i other
        exact ih (by simp [Ne.symm other, h]) hline

theorem fitsLine_of_parseChars {line : List Char} {r : Record} (newline : '\n' ∉ line)
    (h : Record.parseChars line = .ok r) : FitsLine r.label := by
  unfold Record.parseChars at h
  split at h
  · cases h
  rename_i label json cut
  split at h
  · cases h
    obtain ⟨whole, tab⟩ := Text.splitOnce_eq_some cut
    rw [whole, List.mem_append, not_or] at newline
    simpa [FitsLine] using ⟨tab, newline.1⟩
  · cases h

theorem fitsLine_of_decodeLines {path : String} {lines : List (Nat × List Char)}
    {records : List Record} (newline : ∀ line ∈ lines, '\n' ∉ line.2)
    (h : decodeLines path lines = .ok records) : ∀ r ∈ records, FitsLine r.label := by
  induction lines generalizing records with
  | nil =>
      rw [← Except.ok.inj h]
      simp
  | cons line rest ih =>
      have others := fun l hl => newline l (List.mem_cons_of_mem line hl)
      rw [decodeLines] at h
      split at h
      · exact ih others h
      split at h
      · cases h
      rename_i r read
      obtain ⟨more, decoded, rfl⟩ := map_eq_ok_iff.mp h
      intro s hs
      rcases List.mem_cons.mp hs with rfl | hs
      · exact fitsLine_of_parseChars (newline line (by simp)) read
      · exact ih others decoded s hs

/-- The labels of the records of a file fit on lines. -/
theorem fitsLine_of_decodeRecords {path : String} {content : ByteArray} {records : List Record}
    (h : decodeRecords path content = .ok records) : ∀ r ∈ records, FitsLine r.label := by
  unfold decodeRecords at h
  split at h
  · cases h
  · refine fitsLine_of_decodeLines (fun line hline => ?_) h
    obtain ⟨⟨chars, number⟩, member, rfl⟩ := List.mem_map.mp hline
    exact Text.newline_not_mem_of_mem_linesFrom (by simp) (List.fst_mem_of_mem_zipIdx member)

end StagedAlgebra
