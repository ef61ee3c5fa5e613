import Mathlib.Data.List.Nodup
import StagedAlgebra.Document
import StagedAlgebra.Proofs.JsonReading
import StagedAlgebra.Proofs.Outcomes

/-!
# Documents of written values

A value whose numbers are integers of 64 bits is the document of its own text, as long as the
text nests no deeper than it may. A text that nests deeper gives a document that cannot be read in
all its parts: `Document.ofWritten_written`, `Document.isReadable_ofWritten`.

The patterns on top of documents are read back as they are laid out: the fields of a structure
under their names, the items of a list one by one.
-/

namespace StagedAlgebra

namespace Json

/-- The numbers of a value are integers that fit 64 bits. -/
inductive Exact : Json → Prop
  | null : Exact .null
  | bool (value : Bool) : Exact (.bool value)
  | string (value : String) : Exact (.string value)
  | int {value : Int} (fits : FitsWord value) : Exact (.int value)
  | array {items : List Json} (each : ∀ item ∈ items, Exact item) : Exact (.array items)
  | object {fields : List (String × Json)} (each : ∀ field ∈ fields, Exact field.2) :
      Exact (.object fields)

theorem Exact.array_map {write : α → Json} {xs : List α} (h : ∀ x ∈ xs, (write x).Exact) :
    (Json.array (xs.map write)).Exact :=
  .array (List.forall_mem_map.mpr h)

theorem writtenItems_eq_map (items : List Json) : writtenItems items = items.map written := by
  induction items with
  | nil => rfl
  | cons item items ih => rw [writtenItems, ih, List.map_cons]

theorem writtenFields_eq_map (fields : List (String × Json)) :
    writtenFields fields = fields.map fun f => (some f.1, f.2.written) := by
  induction fields with
  | nil => rfl
  | cons field fields ih => rw [writtenFields, ih, List.map_cons]

theorem depthItems_le_iff {items : List Json} {level : Nat} :
    depthItems items ≤ level ↔ ∀ item ∈ items, item.depth ≤ level := by
  induction items with
  | nil => simp [depthItems]
  | cons item items ih => rw [depthItems, Nat.max_le, ih, List.forall_mem_cons]

theorem depthFields_le_iff {fields : List (String × Json)} {level : Nat} :
    depthFields fields ≤ level ↔ ∀ field ∈ fields, field.2.depth ≤ level := by
  induction fields with
  | nil => simp [depthFields]
  | cons field fields ih => rw [depthFields, Nat.max_le, ih, List.forall_mem_cons]

end Json

namespace Document

open Json (written writtenItems_eq_map writtenFields_eq_map depthItems_le_iff depthFields_le_iff)

theorem ofJsonItems_eq_map (items : List Json) : ofJsonItems items = items.map ofJson := by
  induction items with
  | nil => rfl
  | cons item items ih => rw [ofJsonItems, ih, List.map_cons]

theorem ofJsonFields_eq_map (fields : List (String × Json)) :
    ofJsonFields fields = fields.map fun f => (.written f.1, ofJson f.2) := by
  induction fields with
  | nil => rfl
  | cons field fields ih => rw [ofJsonFields, ih, List.map_cons]

theorem ofWrittenItems_eq_map (level : Nat) (items : List Json.Written) :
    ofWrittenItems level items = items.map (ofWritten level) := by
  induction items with
  | nil => rfl
  | cons item items ih => rw [ofWrittenItems, ih, List.map_cons]

theorem ofWrittenFields_eq_map (level : Nat) (fields : List (Option String × Json.Written)) :
    ofWrittenFields level fields =
      fields.map fun f => ((f.1.map .written).getD .nameless, ofWritten level f.2) := by
  induction fields with
  | nil => rfl
  | cons field fields ih => rw [ofWrittenFields, ih, List.map_cons]

theorem isReadableList_eq_all (items : List Document) :
    isReadableList items = items.all isReadable := by
  induction items with
  | nil => rfl
  | cons item items ih => rw [isReadableList, ih, List.all_cons]

theorem areReadableFields_eq_all (entries : List (FieldName × Document)) :
    areReadableFields entries = entries.all fun e => e.1.text?.isSome && e.2.isReadable := by
  induction entries with
  | nil => rfl
  | cons entry entries ih => rw [areReadableFields, ih, List.all_cons]

/-- The document of a list that is written. -/
theorem ofWritten_array (level : Nat) (items : List Json) :
    ofWritten (level + 1) (Json.array items).written =
      .list (items.map fun item => ofWritten level item.written) := by
  simp [written, ofWritten, writtenItems_eq_map, ofWrittenItems_eq_map, Function.comp_def]

/-- The document of fields that are written. -/
theorem ofWritten_object (level : Nat) (fields : List (String × Json)) :
    ofWritten (level + 1) (Json.object fields).written =
      .fields (fields.map fun f => (.written f.1, ofWritten level f.2.written)) := by
  simp [written, ofWritten, writtenFields_eq_map, ofWrittenFields_eq_map, Function.comp_def]

/-- Within its depth, what is written is the value itself. -/
theorem ofWritten_written {j : Json} (h : j.Exact) :
    ∀ {level : Nat}, j.depth ≤ level → ofWritten level j.written = ofJson j := by
  induction h with
  | null | bool | string => intros; simp [written, ofWritten]
  | int fits =>
      intros
      simp [written, ofWritten, Json.value?_intText fits]
  | @array items _ ih =>
      intro level fits
      obtain ⟨level, rfl⟩ : ∃ below, level = below + 1 := ⟨level - 1, by grind [Json.depth]⟩
      rw [Json.depth, Nat.add_le_add_iff_right, depthItems_le_iff] at fits
      rw [ofWritten_array, ofJson, ofJsonItems_eq_map]
      exact congrArg _ (List.map_congr_left fun item member => ih item member (fits item member))
  | @object fields _ ih =>
      intro level fits
      obtain ⟨level, rfl⟩ : ∃ below, level = below + 1 := ⟨level - 1, by grind [Json.depth]⟩
      rw [Json.depth, Nat.add_le_add_iff_right, depthFields_le_iff] at fits
      rw [ofWritten_object, ofJson, ofJsonFields_eq_map]
      refine congrArg _ (List.map_congr_left fun field member => ?_)
      rw [ih field member (fits field member)]

/-- Exactly a text that nests no deeper than it may can be read in all its parts. -/
theorem isReadable_ofWritten {j : Json} (h : j.Exact) :
    ∀ {level : Nat}, (ofWritten level j.written).isReadable = true ↔ j.depth ≤ level := by
  induction h with
  | null | bool | string => intros; simp [written, ofWritten, ofJson, isReadable, Json.depth]
  | int fits =>
      intros
      simp [written, ofWritten, Json.value?_intText fits, ofJson, isReadable, Json.depth]
  | @array items _ ih =>
      intro level
      cases level with
      | zero => simp [written, ofWritten, isReadable, Json.depth]
      | succ level =>
          rw [ofWritten_array, isReadable, isReadableList_eq_all, List.all_map, List.all_eq_true,
            Json.depth, Nat.add_le_add_iff_right, depthItems_le_iff]
          exact forall₂_congr fun item member => ih item member
  | @object fields _ ih =>
      intro level
      cases level with
      | zero => simp [written, ofWritten, isReadable, Json.depth]
      | succ level =>
          rw [ofWritten_object, isReadable, areReadableFields_eq_all, List.all_map,
            List.all_eq_true, Json.depth, Nat.add_le_add_iff_right, depthFields_le_iff]
          refine forall₂_congr fun field member => ?_
          simpa [FieldName.text?] using ih field member

theorem isReadable_ofJson {j : Json} (h : j.Exact) : (ofJson j).isReadable = true := by
  rw [← ofWritten_written h (Nat.le_refl _)]
  exact (isReadable_ofWritten h).mpr (Nat.le_refl _)

/-- A name that is given once has one value. -/
theorem valuesNamed_of_nodup {entries : List (String × Document)}
    (distinct : (entries.map (·.1)).Nodup) {entry : String × Document} (member : entry ∈ entries) :
    valuesNamed entry.1 entries = [entry.2] := by
  induction entries with
  | nil => cases member
  | cons first rest ih =>
      rw [List.map_cons, List.nodup_cons] at distinct
      obtain ⟨apart, distinct⟩ := distinct
      rcases List.mem_cons.mp member with rfl | member
      · have others : rest.filter (fun e => e.1 == entry.1) = [] := by
          rw [List.filter_eq_nil_iff]
          intro other inside equal
          rw [beq_iff_eq] at equal
          exact apart (equal ▸ List.mem_map_of_mem inside)
        simp [valuesNamed, others]
      · have other : (first.1 == entry.1) = false := by
          rw [beq_eq_false_iff_ne]
          rintro equal
          exact apart (equal ▸ List.mem_map_of_mem member)
        rw [valuesNamed, List.filter_cons_of_neg (by simp [other])]
        exact ih distinct member

/-- Fields with distinct names are read by them, in their order. -/
theorem structure?_fields (lists : Bool) (entries : List (String × Document))
    (distinct : (entries.map (·.1)).Nodup) :
    (Document.fields (entries.map fun e => (.written e.1, e.2))).structure? lists
        (entries.map (·.1)) =
      some (entries.map fun e => some e.2) := by
  have named : (Document.fields (entries.map fun e => (.written e.1, e.2))).entries? =
      some entries := by
    simp only [entries?, untagged, List.mapM_map]
    rw [mapM_eq_some_map (g := id) (by simp [FieldName.text?]), List.map_id]
  simp only [structure?, untagged, named, Option.bind_some, List.mapM_map]
  refine mapM_eq_some_map fun entry member => ?_
  simp [valuesNamed_of_nodup distinct member]

theorem structure?_ofJson (lists : Bool) (fields : List (String × Json))
    (distinct : (fields.map (·.1)).Nodup) :
    (ofJson (.object fields)).structure? lists (fields.map (·.1)) =
      some (fields.map fun f => some (ofJson f.2)) := by
  have read := structure?_fields lists (fields.map fun f => (f.1, ofJson f.2))
    (by simpa [Function.comp_def] using distinct)
  simpa [ofJson, ofJsonFields_eq_map, Function.comp_def] using read

/-- One field chooses the variant that it is named after. -/
theorem choice?_ofJson {names : List String} {name : String} (known : name ∈ names) (body : Json) :
    (ofJson (.object [(name, body)])).choice? names = some (name, some (ofJson body)) := by
  simp [ofJson, ofJsonFields, choice?, known]

@[simp] theorem text?_ofJson_string (s : String) : (ofJson (.string s)).text? = some s := by
  simp [ofJson, text?, leaf?, untagged]

/-- The items of a list are read one by one. -/
theorem listOf?_ofJson {read : Document → Option α} {write : α → Json} {xs : List α}
    (h : ∀ x ∈ xs, read (ofJson (write x)) = some x) :
    (ofJson (.array (xs.map write))).listOf? read = some xs := by
  simp only [ofJson, ofJsonItems_eq_map, listOf?, items?, untagged, Option.bind_some,
    List.mapM_map]
  rw [mapM_eq_some_map (f := (read ∘ ofJson) ∘ write) (g := id) h, List.map_id]

end Document

end StagedAlgebra
