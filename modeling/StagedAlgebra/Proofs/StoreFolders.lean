import Mathlib.Data.String.Basic
import StagedAlgebra.Proofs.DataFolders

/-!
# Folders of record stores

The folder of a record store holds files of relations, outputs in one file each, and outputs in
folders of parts, none of them empty. What is kept under each path is a view of the folder
(`FileTree.fileAt?`), and each change of an entry is described by what it does to that view.
-/

namespace StagedAlgebra

theorem pathSegments_injective {path other : String} (h : pathSegments path = pathSegments other) :
    path = other := by
  rw [← intercalate_pathSegments path, h, intercalate_pathSegments]

theorem pathSegments_pair {name other : String} (single : '/' ∉ name.toList)
    (slashless : '/' ∉ other.toList) : pathSegments (name ++ "/" ++ other) = [name, other] := by
  rw [pathSegments_append, pathSegments_of_not_mem single, pathSegments_of_not_mem slashless]
  rfl

/-- The keys below a name are those of more names that start with it. -/
theorem isBelow_iff {name key : String} (single : '/' ∉ name.toList) :
    isBelow name key = true ↔ ∃ rest, rest ≠ [] ∧ pathSegments key = name :: rest := by
  rw [isBelow, List.isPrefixOf_iff_prefix]
  constructor
  · rintro ⟨more, chars⟩
    have equal : key = name ++ "/" ++ String.ofList more := by
      apply String.toList_inj.mp
      simp [← chars]
    refine ⟨pathSegments (String.ofList more), pathSegments_ne_nil _, ?_⟩
    rw [equal, pathSegments_append, pathSegments_of_not_mem single, List.singleton_append]
  · rintro ⟨rest, more, segments⟩
    have equal := intercalate_pathSegments key
    rw [segments, String.intercalate_cons_of_ne_nil more] at equal
    exact ⟨("/".intercalate rest).toList, by simp [← equal]⟩

theorem isAtOrBelow_iff_head? {name key : String} (single : '/' ∉ name.toList) :
    isAtOrBelow name key = true ↔ (pathSegments key).head? = some name := by
  have alone := pathSegments_of_not_mem single
  rw [isAtOrBelow, Bool.or_eq_true, beq_iff_eq, isBelow_iff single]
  constructor
  · rintro (rfl | ⟨rest, -, segments⟩)
    · rw [alone]
      rfl
    · rw [segments]
      rfl
  · intro head
    obtain ⟨rest, segments⟩ := List.head?_eq_some_iff.mp head
    by_cases last : rest = []
    · rw [last, ← alone] at segments
      exact .inl (pathSegments_injective segments)
    · exact .inr ⟨rest, last, segments⟩

/-- The name of a part of an output. -/
def numberedPart (index : Nat) : String :=
  "part-" ++ String.ofList (Text.padLeft '0' 5 (Text.natChars index))

theorem slash_not_mem_numberedPart (index : Nat) : '/' ∉ (numberedPart index).toList := by
  have digits : '/' ∉ Text.padLeft '0' 5 (Text.natChars index) :=
    fun member => absurd (Json.isDigit_of_mem_padLeft member) (by decide)
  simpa [numberedPart] using digits

theorem numberedPart_zero : numberedPart 0 = partName := by
  decide

/-- The last character of the name of a folder for parts is a digit. -/
theorem ne_outputPath_distributed {name : String} {c : Char} (last : name.toList.getLast? = some c)
    (other : Text.isDigit c = false) (step : StepId) : name ≠ outputPath .distributed step := by
  rintro rfl
  have chars : (outputPath .distributed step).toList =
      "tmp".toList ++ Text.natChars step.number.toNat := by
    simp [outputPath, StepId.digits]
  rw [chars, List.getLast?_append_of_ne_nil _ (Text.natChars_ne_nil _)] at last
  have digit := Text.isDigit_of_mem_natChars (List.mem_of_getLast? last)
  rw [other] at digit
  cases digit

theorem relationPath_ne_outputPath (relation : String) (step : StepId) :
    relationPath relation ≠ outputPath .distributed step :=
  ne_outputPath_distributed (c := 'n') (by simp [relationPath]) (by decide) step

theorem outputPath_standalone_ne (step other : StepId) :
    outputPath .standalone step ≠ outputPath .distributed other :=
  ne_outputPath_distributed (c := 'p')
    (by rw [outputPath, String.toList_append, List.getLast?_append]; rfl) (by decide) other

namespace FileTree

variable {name key : String} {entries : List (String × FileTree)} {content : ByteArray}

theorem fileAt?_cons (name : String) (rest : List String) (entries : List (String × FileTree)) :
    (folder entries).fileAt? (name :: rest) = (entryNamed? name entries).bind (·.fileAt? rest) := by
  simp only [fileAt?, at?_cons]
  cases entryNamed? name entries <;> rfl

theorem fileAt?_file (content : ByteArray) (rest : List String) :
    (file content).fileAt? rest = if rest = [] then some content else none := by
  cases rest <;> simp [fileAt?, at?]

/-- A file that does not replace a folder changes what is kept under its name alone. -/
theorem fileAt?_putEntry_file (single : '/' ∉ name.toList)
    (free : ∀ others, entryNamed? name entries ≠ some (.folder others)) (key : String) :
    (folder (putEntry name (.file content) entries)).fileAt? (pathSegments key) =
      if key = name then some content else (folder entries).fileAt? (pathSegments key) := by
  have alone := pathSegments_of_not_mem single
  cases segments : pathSegments key with
  | nil => exact absurd segments (pathSegments_ne_nil key)
  | cons first rest =>
      rw [fileAt?_cons, fileAt?_cons, entryNamed?_putEntry]
      by_cases same : first = name
      · subst same
        have old (more : rest ≠ []) : (entryNamed? first entries).bind (·.fileAt? rest) = none := by
          cases found : entryNamed? first entries with
          | none => rfl
          | some x =>
              cases x with
              | file other => simp [fileAt?_file, more]
              | folder others => exact absurd found (free others)
        by_cases last : rest = []
        · have equal : key = first := pathSegments_injective (by rw [segments, last, alone])
          simp [last, equal, fileAt?_file]
        · have different : key ≠ first := by
            rintro rfl
            rw [alone] at segments
            exact last (List.cons.inj segments).2.symm
          simp [different, old last, fileAt?_file, last]
      · have different : key ≠ name := by
          rintro rfl
          rw [alone] at segments
          exact same (List.cons.inj segments).1.symm
        simp [same, different]

/-- Without an entry, nothing is kept at or below its name. -/
theorem fileAt?_filter (single : '/' ∉ name.toList) (key : String) :
    (folder (entries.filter (·.1 != name))).fileAt? (pathSegments key) =
      if isAtOrBelow name key then none else (folder entries).fileAt? (pathSegments key) := by
  simp only [isAtOrBelow_iff_head? single]
  cases segments : pathSegments key with
  | nil => exact absurd segments (pathSegments_ne_nil key)
  | cons first rest =>
      rw [fileAt?_cons, fileAt?_cons, List.head?_cons]
      by_cases same : first = name
      · simp [same, entryNamed?_filter_self]
      · simp [same, entryNamed?_filter same]

/-- A folder with one part, put where nothing was, adds what is kept under that part. -/
theorem fileAt?_putEntry_part {part : String} (single : '/' ∉ name.toList)
    (slashless : '/' ∉ part.toList) (gone : entryNamed? name entries = none) (key : String) :
    (folder (putEntry name (.folder [(part, .file content)]) entries)).fileAt? (pathSegments key) =
      if key = name ++ "/" ++ part then some content
      else (folder entries).fileAt? (pathSegments key) := by
  have keys : key = name ++ "/" ++ part ↔ pathSegments key = [name, part] := by
    rw [← pathSegments_pair single slashless]
    exact ⟨congrArg _, pathSegments_injective⟩
  simp only [keys]
  cases segments : pathSegments key with
  | nil => exact absurd segments (pathSegments_ne_nil key)
  | cons first rest =>
      rw [fileAt?_cons, fileAt?_cons, entryNamed?_putEntry]
      by_cases same : first = name
      · subst same
        cases rest with
        | nil => simp [gone, fileAt?, at?]
        | cons second more =>
            by_cases equal : second = part
            · simp [equal, gone, fileAt?_cons, entryNamed?, fileAt?_file]
            · simp [equal, Ne.symm equal, gone, fileAt?_cons, entryNamed?]
      · simp [same]

theorem mem_of_entryNamed? {x : FileTree} (h : entryNamed? name entries = some x) :
    (name, x) ∈ entries := by
  induction entries with
  | nil => cases h
  | cons e rest ih =>
      by_cases same : e.1 = name
      · simp only [entryNamed?, same, if_true, Option.some.injEq] at h
        rw [← same, ← h]
        exact List.mem_cons_self ..
      · simp only [entryNamed?, same, if_false] at h
        exact List.mem_cons_of_mem _ (ih h)

theorem entryNamed?_of_mem {e : String × FileTree} (distinct : (entries.map (·.1)).Nodup)
    (member : e ∈ entries) : entryNamed? e.1 entries = some e.2 := by
  cases found : entryNamed? e.1 entries with
  | none => exact absurd rfl (entryNamed?_eq_none_iff.mp found e member)
  | some x =>
      have same := List.inj_on_of_nodup_map distinct (mem_of_entryNamed? found) member rfl
      rw [← same]

theorem mem_putEntry {x : FileTree} {e : String × FileTree} (h : e ∈ putEntry name x entries) :
    e = (name, x) ∨ e ∈ entries := by
  induction entries with
  | nil => exact .inl (List.mem_singleton.mp h)
  | cons first rest ih =>
      by_cases same : first.1 = name
      · simp only [putEntry, same, if_true, List.mem_cons] at h
        exact h.imp_right (List.mem_cons_of_mem _)
      · simp only [putEntry, same, if_false, List.mem_cons] at h
        rcases h with rfl | h
        · exact .inr (List.mem_cons_self ..)
        · exact (ih h).imp_right (List.mem_cons_of_mem _)

theorem nodup_putEntry (x : FileTree) (distinct : (entries.map (·.1)).Nodup) :
    ((putEntry name x entries).map (·.1)).Nodup := by
  induction entries with
  | nil => simp [putEntry]
  | cons first rest ih =>
      rw [List.map_cons, List.nodup_cons] at distinct
      by_cases same : first.1 = name
      · simpa [putEntry, same] using distinct
      · simp only [putEntry, same, if_false, List.map_cons, List.nodup_cons]
        refine ⟨fun member => ?_, ih distinct.2⟩
        obtain ⟨e, inside, equal⟩ := List.mem_map.mp member
        rcases mem_putEntry inside with rfl | inside
        · exact same equal.symm
        · exact distinct.1 (equal ▸ List.mem_map_of_mem inside)

end FileTree

/-- What the folder of a record store holds under a name. -/
inductive StoreEntry (name : String) : FileTree → Prop
  /-- The file of a relation. -/
  | relation {relation : String} {content : ByteArray} (single : '/' ∉ relation.toList)
      (named : name = relationPath relation) : StoreEntry name (.file content)
  /-- An output in one file. -/
  | output {step : StepId} {content : ByteArray} (named : name = outputPath .standalone step) :
      StoreEntry name (.file content)
  /-- An output in a folder of parts, of which there is one at least. -/
  | parts {step : StepId} {files : List (String × FileTree)}
      (named : name = outputPath .distributed step) (some_part : files ≠ [])
      (distinct : (files.map (·.1)).Nodup)
      (each : ∀ f ∈ files, ∃ index content, f = (numberedPart index, .file content)) :
      StoreEntry name (.folder files)

/-- A folder holds what a record store keeps, each under a name of its own. -/
structure StoreFolder (entries : List (String × FileTree)) : Prop where
  distinct : (entries.map (·.1)).Nodup
  known : ∀ e ∈ entries, StoreEntry e.1 e.2

namespace StoreFolder

variable {name : String} {entries : List (String × FileTree)} {x : FileTree} {step : StepId}

theorem entry (h : StoreFolder entries) (found : FileTree.entryNamed? name entries = some x) :
    StoreEntry name x :=
  h.known _ (FileTree.mem_of_entryNamed? found)

theorem putEntry (h : StoreFolder entries) (known : StoreEntry name x) :
    StoreFolder (FileTree.putEntry name x entries) where
  distinct := FileTree.nodup_putEntry x h.distinct
  known e member := by
    rcases FileTree.mem_putEntry member with rfl | member
    · exact known
    · exact h.known e member

theorem filter (h : StoreFolder entries) (keep : String × FileTree → Bool) :
    StoreFolder (entries.filter keep) where
  distinct := h.distinct.sublist (List.filter_sublist.map _)
  known e member := h.known e (List.mem_filter.mp member).1

/-- Only a folder of parts stands under the name of one. -/
theorem exists_parts (h : StoreFolder entries)
    (found : FileTree.entryNamed? (outputPath .distributed step) entries = some x) :
    ∃ files, x = .folder files ∧ files ≠ [] ∧ (files.map (·.1)).Nodup ∧
      ∀ f ∈ files, ∃ index content, f = (numberedPart index, .file content) := by
  cases h.entry found with
  | relation single named => exact absurd named.symm (relationPath_ne_outputPath _ _)
  | output named => exact absurd named.symm (outputPath_standalone_ne _ _)
  | parts named some_part distinct each => exact ⟨_, rfl, some_part, distinct, each⟩

/-- No folder stands under any other name. -/
theorem not_folder (h : StoreFolder entries) (other : ∀ step, name ≠ outputPath .distributed step)
    (files : List (String × FileTree)) :
    FileTree.entryNamed? name entries ≠ some (.folder files) := by
  intro found
  cases h.entry found with
  | parts named => exact other _ named

end StoreFolder

end StagedAlgebra
