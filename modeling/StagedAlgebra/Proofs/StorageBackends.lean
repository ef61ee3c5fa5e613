import Mathlib.Data.List.Sort
import StagedAlgebra.Proofs.StoreFolders

/-!
# Storage in memory and in a file tree

A record store gives the same answers whether its objects are in memory or in a folder of a file
tree. The two storages start with the same objects: files of relations, outputs in one file and
outputs in folders of parts, without an empty folder. Then every call of the store succeeds on one
if it does on the other, what is read is the same, and they hold the same objects in the end:
`Storage.performAll_agrees`.

## Implementation notes

`Storage.Mirrors` relates objects in memory to a file tree. Every call keeps it, so by induction
every run of calls does. A file system can refuse a path for its length or its characters alone;
the calls and the objects are taken to be such that it does not (`Accepts`).
-/

namespace StagedAlgebra

/-- A call of a record store. -/
inductive StoreCall where
  /-- Store the records of a relation. -/
  | writeRelation (relation : String) (records : List Record)
  /-- Ask for the records of a relation. -/
  | readRelation (relation : String)
  /-- Store what a step puts out. -/
  | writeOutput (step : StepId) (records : List Record)
  /-- Ask for what a step has put out. -/
  | readOutput (step : StepId)
  /-- Remove what a step has put out. -/
  | removeOutput (step : StepId)

/-- The answer to a call that succeeds. -/
inductive StoreAnswer where
  /-- Something is done. -/
  | done
  /-- An output is stored under a path. -/
  | stored (path : String)
  /-- Records are read. -/
  | records (records : List Record)

namespace StoreCall

/-- The path of the object that a call is about. -/
def object (environment : Environment) : StoreCall → String
  | .writeRelation relation _ | .readRelation relation => relationPath relation
  | .writeOutput step _ | .readOutput step | .removeOutput step => outputObject environment step

/-- A call names a relation without a slash, if it names one. -/
def Single : StoreCall → Prop
  | .writeRelation relation _ | .readRelation relation => '/' ∉ relation.toList
  | .writeOutput .. | .readOutput _ | .removeOutput _ => True

end StoreCall

namespace Storage

open FileTree (entryNamed? putEntry)

/-- The answer to a call and the storage after it. -/
def perform (s : Storage) (environment : Environment) :
    StoreCall → Except StorageFault StoreAnswer × Storage
  | .writeRelation relation records =>
    let (outcome, s) := s.writeRelation relation records
    (outcome.map fun _ => .done, s)
  | .readRelation relation => ((s.readRelation relation).map .records, s)
  | .writeOutput step records =>
    let (outcome, s) := s.writeOutput environment step records
    (outcome.map .stored, s)
  | .readOutput step => ((s.readOutput environment step).map .records, s)
  | .removeOutput step =>
    let (outcome, s) := s.removeOutput environment step
    (outcome.map fun _ => .done, s)

/-- The answers to calls one after the other, and the storage after them. -/
def performAll (s : Storage) (environment : Environment) :
    List StoreCall → List (Except StorageFault StoreAnswer) × Storage
  | [] => ([], s)
  | call :: calls =>
    let (answer, s) := s.perform environment call
    let (answers, s) := s.performAll environment calls
    (answer :: answers, s)

/-- The folder of a file tree mirrors objects in memory. -/
structure Mirrors (root : String) (objects : Table ByteArray) (t : FileTree) : Prop where
  /-- The way to the folder does not lead into it. -/
  outward : Outward root
  /-- The folder is there, or can be made, and holds nothing but what record stores keep. -/
  folder : ∃ entries, HasEntries root t entries ∧ StoreFolder entries
  /-- It keeps the same objects. -/
  same : ∀ path, (memory objects).object? path = (disk root t).object? path
  /-- Their paths are ones that files can have. -/
  accepted : ∀ key ∈ objects.keys, Accepts root key

theorem toOption_readRelation (s : Storage) (relation : String) :
    (s.readRelation relation).toOption = (s.read (relationPath relation)).toOption.bind
      fun content => (decodeRecords (relationPath relation) content).toOption := by
  simp only [readRelation]
  cases s.read (relationPath relation) <;> rfl

theorem toOption_readParts (s : Storage) (path : String) (rest : List String) :
    (s.readParts (path :: rest)).toOption = (s.read path).toOption.bind fun content =>
      (decodeRecords path content).toOption.bind fun records =>
        (s.readParts rest).toOption.map (records ++ ·) := by
  simp only [readParts]
  cases s.read path with
  | error fault => rfl
  | ok content =>
      simp only [Except.toOption, Option.bind_some]
      cases decodeRecords path content with
      | error fault => rfl
      | ok records => cases s.readParts rest <;> rfl

/-- The texts of some names below a folder are listed in ascending order. -/
theorem pairwise_lt_mergeSort {texts : List String} (distinct : texts.Nodup) :
    (texts.mergeSort fun a b => decide (a ≤ b)).Pairwise (· < ·) := by
  have sorted := List.pairwise_mergeSort' (r := fun a b : String => a ≤ b) texts
  have apart : (texts.mergeSort fun a b => decide (a ≤ b)).Nodup :=
    (List.mergeSort_perm _ _).nodup_iff.mpr distinct
  exact (sorted.and apart).imp fun ⟨le, ne⟩ => lt_of_le_of_ne le ne

/-- The files of a folder that holds only files. -/
theorem files_of_flat {files : List (String × FileTree)}
    (flat : ∀ f ∈ files, ∃ content, f.2 = .file content) :
    (FileTree.folder files).files = files.map fun f => [f.1] := by
  rw [FileTree.files]
  induction files with
  | nil => rfl
  | cons f rest ih =>
      obtain ⟨content, equal⟩ := flat f (by simp)
      rw [FileTree.filesOf, equal, ih fun g hg => flat g (by simp [hg])]
      rfl

namespace Mirrors

variable {root path name relation : String} {objects : Table ByteArray} {t : FileTree}
variable {environment : Environment} {step : StepId} {entries : List (String × FileTree)}

/-- The objects in memory are the files below the folder. -/
theorem get?_eq (h : Mirrors root objects t) (has : HasEntries root t entries) (key : String) :
    objects.get? key = (FileTree.folder entries).fileAt? (pathSegments key) :=
  (h.same key).trans (has.object? key)

theorem read (h : Mirrors root objects t) (accepts : Accepts root path) :
    ((memory objects).read path).toOption = ((disk root t).read path).toOption := by
  obtain ⟨entries, has, -⟩ := h.folder
  rw [has.read accepts, ← h.get?_eq has]
  simp only [Storage.read]
  cases objects.get? path <;> rfl

theorem readRelation (h : Mirrors root objects t) (accepts : Accepts root (relationPath relation)) :
    ((memory objects).readRelation relation).toOption =
      ((disk root t).readRelation relation).toOption := by
  rw [toOption_readRelation, toOption_readRelation, h.read accepts]

theorem readParts (h : Mirrors root objects t) {paths : List String}
    (accepts : ∀ path ∈ paths, Accepts root path) :
    ((memory objects).readParts paths).toOption = ((disk root t).readParts paths).toOption := by
  induction paths with
  | nil => rfl
  | cons path rest ih =>
      rw [toOption_readParts, toOption_readParts, h.read (accepts path (by simp)),
        ih fun other member => accepts other (by simp [member])]

/-- The parts of an output are the objects below its path. -/
theorem mem_keys_below (h : Mirrors root objects t) (has : HasEntries root t entries)
    {files : List (String × FileTree)}
    (found : entryNamed? (outputPath .distributed step) entries = some (.folder files))
    (distinct : (files.map (·.1)).Nodup)
    (each : ∀ f ∈ files, ∃ index content, f = (numberedPart index, .file content))
    (key : String) :
    key ∈ objects.keys.filter (isBelow (outputPath .distributed step)) ↔
      key ∈ files.map fun f => outputPath .distributed step ++ "/" ++ f.1 := by
  have single := slash_not_mem_outputPath .distributed step
  rw [List.mem_filter, Table.mem_keys_iff_exists, isBelow_iff single, List.mem_map]
  constructor
  · rintro ⟨⟨content, kept⟩, rest, more, segments⟩
    rw [h.get?_eq has, segments, FileTree.fileAt?_cons, found, Option.bind_some] at kept
    obtain ⟨first, others, rfl⟩ := List.exists_cons_of_ne_nil more
    rw [FileTree.fileAt?_cons] at kept
    obtain ⟨x, inside, kept⟩ := Option.bind_eq_some_iff.mp kept
    obtain ⟨index, stored, equal⟩ := each _ (FileTree.mem_of_entryNamed? inside)
    obtain ⟨-, rfl⟩ := Prod.mk.inj equal
    rw [FileTree.fileAt?_file] at kept
    split at kept
    · next last =>
        refine ⟨_, FileTree.mem_of_entryNamed? inside, ?_⟩
        rw [← intercalate_pathSegments key, segments, last]
        simp
    · cases kept
  · rintro ⟨f, member, rfl⟩
    obtain ⟨index, content, rfl⟩ := each f member
    have segments := pathSegments_pair single (slash_not_mem_numberedPart index)
    refine ⟨⟨content, ?_⟩, [numberedPart index], by simp, segments⟩
    have inside := FileTree.entryNamed?_of_mem distinct member
    rw [h.get?_eq has, segments, FileTree.fileAt?_cons, found, Option.bind_some,
      FileTree.fileAt?_cons, inside]
    rfl

/-- Something is kept at or below the path of an output exactly if there is a folder for it. -/
theorem exists_key_iff (h : Mirrors root objects t) (has : HasEntries root t entries)
    (stock : StoreFolder entries) :
    (∃ key ∈ objects.keys, isAtOrBelow (outputPath .distributed step) key = true) ↔
      (entryNamed? (outputPath .distributed step) entries).isSome = true := by
  have single := slash_not_mem_outputPath .distributed step
  constructor
  · rintro ⟨key, member, inside⟩
    obtain ⟨content, kept⟩ := Table.mem_keys_iff_exists.mp member
    obtain ⟨rest, segments⟩ := List.head?_eq_some_iff.mp ((isAtOrBelow_iff_head? single).mp inside)
    rw [h.get?_eq has, segments, FileTree.fileAt?_cons] at kept
    obtain ⟨x, found, -⟩ := Option.bind_eq_some_iff.mp kept
    exact Option.isSome_of_eq_some found
  · intro found
    obtain ⟨x, found⟩ := Option.isSome_iff_exists.mp found
    obtain ⟨files, rfl, some_part, distinct, each⟩ := stock.exists_parts found
    obtain ⟨f, member⟩ := List.exists_mem_of_ne_nil files some_part
    have below := (h.mem_keys_below has found distinct each _).mpr (List.mem_map_of_mem member)
    obtain ⟨known, inside⟩ := List.mem_filter.mp below
    exact ⟨_, known, isAtOrBelow_of_isBelow inside⟩

theorem accepts_outputPath (accepts : Accepts root (outputObject .distributed step)) :
    Accepts root (outputPath .distributed step) where
  short := by
    have longer := (utf8ByteSize_folder_le root step).trans accepts.short
    rw [joinPath_outputPath, String.utf8ByteSize_append] at longer
    omega
  names := by
    rw [pathSegments_of_not_mem (slash_not_mem_outputPath _ _), List.forall_mem_singleton]
    exact ⟨plainSegment_outputPath .., isFileName_outputPath ..⟩

theorem contains_disk (has : HasEntries root t entries)
    (accepts : Accepts root (outputObject .distributed step)) :
    (disk root t).contains (outputPath .distributed step) =
      (entryNamed? (outputPath .distributed step) entries).isSome := by
  rw [has.contains (accepts_outputPath accepts),
    pathSegments_of_not_mem (slash_not_mem_outputPath _ _), FileTree.at?_cons]
  cases entryNamed? (outputPath .distributed step) entries <;> rfl

theorem contains_output (h : Mirrors root objects t)
    (accepts : Accepts root (outputObject .distributed step)) :
    (memory objects).contains (outputPath .distributed step) =
      (disk root t).contains (outputPath .distributed step) := by
  obtain ⟨entries, has, stock⟩ := h.folder
  rw [contains_disk has accepts, Storage.contains, trimEndOf_outputPath, Bool.eq_iff_iff,
    List.any_eq_true, h.exists_key_iff has stock]

/-- The parts of an output are listed alike. -/
theorem list_output (h : Mirrors root objects t)
    (accepts : Accepts root (outputObject .distributed step))
    (there : (disk root t).contains (outputPath .distributed step) = true) :
    (memory objects).list (outputPath .distributed step ++ "/") =
      (disk root t).list (outputPath .distributed step ++ "/") := by
  obtain ⟨entries, has, stock⟩ := h.folder
  rw [contains_disk has accepts] at there
  obtain ⟨x, found⟩ := Option.isSome_iff_exists.mp there
  obtain ⟨files, rfl, -, distinct, each⟩ := stock.exists_parts found
  have flat : ∀ f ∈ files, ∃ content, f.2 = .file content := by
    intro f member
    obtain ⟨index, content, rfl⟩ := each f member
    exact ⟨content, rfl⟩
  have members := h.mem_keys_below has found distinct each
  cases has with
  | missing => cases found
  | there opens folder =>
      have inside : t.at? (folderPlace root ++ [outputPath .distributed step]) =
          some (.folder files) := by
        rw [FileTree.at?_append, folder, Option.bind_some, FileTree.at?_cons, found]
        rfl
      have paths : (files.map fun f => outputPath .distributed step ++ "/" ++ f.1).Nodup := by
        have injective : Function.Injective (outputPath .distributed step ++ "/" ++ ·) := by
          intro a b equal
          have chars := congrArg String.toList equal
          simp only [String.toList_append] at chars
          exact String.toList_inj.mp (List.append_cancel_left chars)
        have mapped := distinct.map injective
        rwa [List.map_map] at mapped
      have listed : (disk root t).list (outputPath .distributed step ++ "/") =
          (files.map fun f => outputPath .distributed step ++ "/" ++ f.1).mergeSort
            fun a b => decide (a ≤ b) := by
        rw [list_folder opens (isFileName_outputPath ..)
          ((utf8ByteSize_folder_le root step).trans accepts.short) inside, files_of_flat flat,
          List.map_map]
        simp [Function.comp_def]
      rw [list_below, listed]
      refine Table.eq_of_pairwise_lt (objects.keys_pairwise.filter _)
        (pairwise_lt_mergeSort paths) fun key => ?_
      rw [members, List.mem_mergeSort]

theorem readOutput (h : Mirrors root objects t)
    (accepts : Accepts root (outputObject environment step)) :
    ((memory objects).readOutput environment step).toOption =
      ((disk root t).readOutput environment step).toOption := by
  cases environment with
  | standalone | mock => exact h.readParts (List.forall_mem_singleton.mpr accepts)
  | distributed =>
      simp only [Storage.readOutput, h.contains_output accepts]
      split
      · next there =>
          rw [← h.list_output accepts there]
          refine h.readParts fun path member => h.accepted path ?_
          rw [list_below] at member
          exact (List.mem_filter.mp member).1
      · rfl

theorem of_entries (outward : Outward root) (has : HasEntries root t entries)
    (stock : StoreFolder entries)
    (same : ∀ key, objects.get? key = (FileTree.folder entries).fileAt? (pathSegments key))
    (accepted : ∀ key ∈ objects.keys, Accepts root key) : Mirrors root objects t where
  outward := outward
  folder := ⟨entries, has, stock⟩
  same key := (same key).trans (has.object? key).symm
  accepted := accepted

theorem accepted_insert (h : Mirrors root objects t) (accepts : Accepts root path)
    (content : ByteArray) : ∀ key ∈ (objects.insert path content).keys, Accepts root key := by
  intro key member
  rcases Table.mem_keys_insert.mp member with rfl | member
  · exact accepts
  · exact h.accepted key member

/-- A file of its own is written alike. -/
theorem exists_write (h : Mirrors root objects t) (single : '/' ∉ name.toList)
    (accepts : Accepts root name) (content : ByteArray) (known : StoreEntry name (.file content))
    (other : ∀ step, name ≠ outputPath .distributed step) :
    ∃ t', (disk root t).write name content = (.ok (), disk root t') ∧
      Mirrors root (objects.insert name content) t' := by
  obtain ⟨entries, has, stock⟩ := h.folder
  have free := stock.not_folder other
  obtain ⟨t', written, has'⟩ := has.exists_write h.outward accepts single free content
  refine ⟨t', written, of_entries h.outward has' (stock.putEntry known) (fun key => ?_) ?_⟩
  · rw [FileTree.fileAt?_putEntry_file single free, ← h.get?_eq has, Table.get?_insert]
    simp only [eq_comm]
  · exact h.accepted_insert accepts content

/-- What is at or below a name is removed alike. -/
theorem exists_delete (h : Mirrors root objects t) (single : '/' ∉ name.toList)
    (accepts : Accepts root name) :
    ∃ t', (disk root t).delete name = (.ok (), disk root t') ∧
      Mirrors root (objects.filter fun key _ => !isAtOrBelow name key) t' := by
  obtain ⟨entries, has, stock⟩ := h.folder
  obtain ⟨t', removed, has'⟩ := has.exists_delete h.outward accepts single
  have kept (key : String) := Table.get?_filter_key objects (fun key => !isAtOrBelow name key) key
  refine ⟨t', removed, of_entries h.outward has' (stock.filter _) (fun key => ?_) ?_⟩
  · rw [FileTree.fileAt?_filter single, ← h.get?_eq has, kept]
    cases isAtOrBelow name key <;> rfl
  · intro key member
    rw [Table.mem_keys_iff, kept] at member
    split at member
    · exact h.accepted key (Table.mem_keys_iff.mpr member)
    · cases member

/-- The part of an output that is gone is written alike. -/
theorem exists_write_part (h : Mirrors root objects t)
    (accepts : Accepts root (outputObject .distributed step))
    (gone : ∀ key ∈ objects.keys, isAtOrBelow (outputPath .distributed step) key = false)
    (content : ByteArray) :
    ∃ t', (disk root t).write (outputObject .distributed step) content = (.ok (), disk root t') ∧
      Mirrors root (objects.insert (outputObject .distributed step) content) t' := by
  obtain ⟨entries, has, stock⟩ := h.folder
  have absent : entryNamed? (outputPath .distributed step) entries = none := by
    rw [← Option.not_isSome_iff_eq_none, ← h.exists_key_iff has stock]
    rintro ⟨key, member, inside⟩
    rw [gone key member] at inside
    cases inside
  obtain ⟨t', written, has'⟩ := has.exists_write_part h.outward accepts absent content
  have known : StoreEntry (outputPath .distributed step)
      (.folder [(partName, .file content)]) := by
    refine .parts rfl (by simp) (by simp) ?_
    rw [List.forall_mem_singleton]
    exact ⟨0, content, by rw [numberedPart_zero]⟩
  have part : outputObject .distributed step =
      outputPath .distributed step ++ "/" ++ partName := by
    rw [outputObject, partPath_zero]
  refine ⟨t', written, of_entries h.outward has' (stock.putEntry known) (fun key => ?_) ?_⟩
  · rw [FileTree.fileAt?_putEntry_part (slash_not_mem_outputPath _ _) (by decide) absent,
      ← h.get?_eq has, Table.get?_insert, part]
    simp only [eq_comm]
  · exact h.accepted_insert accepts content

theorem exists_writeRelation (h : Mirrors root objects t) (single : '/' ∉ relation.toList)
    (accepts : Accepts root (relationPath relation)) (records : List Record) :
    ∃ t', (disk root t).writeRelation relation records = (.ok (), disk root t') ∧
      Mirrors root (objects.insert (relationPath relation) (encodeRecords records)) t' := by
  have slashless : '/' ∉ (relationPath relation).toList := by
    simpa [relationPath] using single
  exact h.exists_write slashless accepts _ (.relation single rfl)
    (relationPath_ne_outputPath relation)

theorem exists_removeOutput (h : Mirrors root objects t)
    (accepts : Accepts root (outputObject environment step)) :
    ∃ t', (disk root t).removeOutput environment step = (.ok (), disk root t') ∧
      Mirrors root (objects.filter fun key _ => !isAtOrBelow (outputPath environment step) key)
        t' := by
  have single := slash_not_mem_outputPath environment step
  refine h.exists_delete single ?_
  cases environment with
  | standalone | mock => exact accepts
  | distributed => exact accepts_outputPath accepts

theorem exists_writeOutput (h : Mirrors root objects t)
    (accepts : Accepts root (outputObject environment step)) (records : List Record) :
    ∃ t', (disk root t).writeOutput environment step records =
        (.ok (outputPath environment step), disk root t') ∧
      Mirrors root (objects.withOutput environment step (encodeRecords records)) t' := by
  cases environment with
  | standalone | mock =>
      rw [outputObject] at accepts
      obtain ⟨t', written, after⟩ := h.exists_write (slash_not_mem_outputPath _ step) accepts
        (encodeRecords records) (.output rfl) (outputPath_standalone_ne step)
      refine ⟨t', ?_, ?_⟩
      · simp only [Storage.writeOutput, written]
        rfl
      · simpa [Table.withOutput, givesWay, Table.filter_all, outputObject] using after
  | distributed =>
      obtain ⟨t₁, removed, cleared⟩ := h.exists_removeOutput accepts
      have gone : ∀ key ∈ (objects.filter fun key _ =>
          !isAtOrBelow (outputPath .distributed step) key).keys,
          isAtOrBelow (outputPath .distributed step) key = false := by
        intro key member
        rw [Table.mem_keys_iff, Table.get?_filter_key _
          fun key => !isAtOrBelow (outputPath .distributed step) key] at member
        split at member
        · next outside => simpa using outside
        · cases member
      obtain ⟨t₂, written, after⟩ := cleared.exists_write_part accepts gone (encodeRecords records)
      refine ⟨t₂, writeOutput_of_write_part removed written, ?_⟩
      simpa [Table.withOutput, givesWay] using after

/-- A call is answered alike, and the storages stay alike. -/
theorem perform (h : Mirrors root objects t) {call : StoreCall} (single : call.Single)
    (accepts : Accepts root (call.object environment)) :
    ∃ objects' t', ((memory objects).perform environment call).2 = memory objects' ∧
      ((disk root t).perform environment call).2 = disk root t' ∧ Mirrors root objects' t' ∧
        ((memory objects).perform environment call).1.toOption =
          ((disk root t).perform environment call).1.toOption := by
  cases call with
  | writeRelation relation records =>
      obtain ⟨t', written, after⟩ := h.exists_writeRelation single accepts records
      have stored : (memory objects).writeRelation relation records =
          (.ok (), memory (objects.insert (relationPath relation) (encodeRecords records))) := rfl
      exact ⟨_, t', by simp only [Storage.perform, stored], by simp only [Storage.perform, written],
        after, by simp only [Storage.perform, stored, written]⟩
  | readRelation relation =>
      refine ⟨objects, t, rfl, rfl, h, ?_⟩
      simp only [Storage.perform, toOption_map, h.readRelation accepts]
  | writeOutput step records =>
      obtain ⟨t', written, after⟩ := h.exists_writeOutput accepts records
      have stored := writeOutput_memory objects environment step records
      exact ⟨_, t', by simp only [Storage.perform, stored], by simp only [Storage.perform, written],
        after, by simp only [Storage.perform, stored, written]⟩
  | readOutput step =>
      refine ⟨objects, t, rfl, rfl, h, ?_⟩
      simp only [Storage.perform, toOption_map, h.readOutput accepts]
  | removeOutput step =>
      obtain ⟨t', removed, after⟩ := h.exists_removeOutput accepts
      have left : (memory objects).removeOutput environment step = (.ok (), memory
          (objects.filter fun key _ => !isAtOrBelow (outputPath environment step) key)) := by
        simp only [Storage.removeOutput, delete, trimEndOf_outputPath]
      exact ⟨_, t', by simp only [Storage.perform, left], by simp only [Storage.perform, removed],
        after, by simp only [Storage.perform, left, removed]⟩

/-- Calls one after the other are answered alike, and the storages stay alike. -/
theorem performAll (h : Mirrors root objects t) {calls : List StoreCall}
    (single : ∀ call ∈ calls, call.Single)
    (accepts : ∀ call ∈ calls, Accepts root (call.object environment)) :
    ∃ objects' t', ((memory objects).performAll environment calls).2 = memory objects' ∧
      ((disk root t).performAll environment calls).2 = disk root t' ∧ Mirrors root objects' t' ∧
        ((memory objects).performAll environment calls).1.map Except.toOption =
          ((disk root t).performAll environment calls).1.map Except.toOption := by
  induction calls generalizing objects t with
  | nil => exact ⟨objects, t, rfl, rfl, h, rfl⟩
  | cons call calls ih =>
      rw [List.forall_mem_cons] at single accepts
      obtain ⟨objects₁, t₁, first, second, after, answer⟩ := h.perform single.1 accepts.1
      obtain ⟨objects₂, t₂, first', second', after', answers⟩ := ih after single.2 accepts.2
      refine ⟨objects₂, t₂, ?_, ?_, after', ?_⟩
      · simp only [Storage.performAll, first, first']
      · simp only [Storage.performAll, second, second']
      · simp only [Storage.performAll, first, second, List.map_cons, answer, answers]

end Mirrors

/-- A record store answers every call alike over objects in memory and over a folder that mirrors
them, and keeps the same objects in both. -/
theorem performAll_agrees (environment : Environment) {root : String} {objects : Table ByteArray}
    {t : FileTree} (start : Mirrors root objects t) {calls : List StoreCall}
    (single : ∀ call ∈ calls, call.Single)
    (accepts : ∀ call ∈ calls, Accepts root (call.object environment)) :
    ((memory objects).performAll environment calls).1.map Except.toOption =
        ((disk root t).performAll environment calls).1.map Except.toOption ∧
      ∀ path, ((memory objects).performAll environment calls).2.object? path =
        ((disk root t).performAll environment calls).2.object? path := by
  obtain ⟨objects', t', first, second, after, answers⟩ := start.performAll single accepts
  refine ⟨answers, fun path => ?_⟩
  rw [first, second]
  exact after.same path

/-- A relation and an output of one part, in memory. -/
def stockedObjects : Table ByteArray :=
  (Table.empty.insert (relationPath "Person")
      (encodeRecords [⟨"Person", Table.ofList [("Person.age", .int 9)]⟩])).insert
    (outputObject .distributed ⟨3⟩) (encodeRecords [])

/-- The same objects in the folder `data` of a file tree. -/
def stockedTree : FileTree :=
  .folder [("data", .folder (putEntry (outputPath .distributed ⟨3⟩)
    (.folder [(partName, .file (encodeRecords []))])
    (putEntry (relationPath "Person")
      (.file (encodeRecords [⟨"Person", Table.ofList [("Person.age", .int 9)]⟩])) [])))]

theorem mirrors_stocked : Mirrors "data" stockedObjects stockedTree := by
  have opens : (disk "data" stockedTree).Open := by
    have read : (disk "data" stockedTree).read (relationPath "Person") = .ok _ := rfl
    exact open_of_read read
  have nothing : StoreFolder [] := ⟨List.nodup_nil, by simp⟩
  have person : StoreEntry (relationPath "Person")
      (.file (encodeRecords [⟨"Person", Table.ofList [("Person.age", .int 9)]⟩])) := by
    have single : '/' ∉ "Person".toList := by decide
    exact .relation single rfl
  have parts : StoreEntry (outputPath .distributed ⟨3⟩)
      (.folder [(partName, .file (encodeRecords []))]) :=
    .parts rfl (by simp) (by simp) (by simpa using ⟨0, numberedPart_zero.symm⟩)
  have stock := (nothing.putEntry person).putEntry parts
  refine .of_entries (by decide) (.there opens rfl) stock (fun key => ?_) (by decide +kernel)
  rw [FileTree.fileAt?_putEntry_part (slash_not_mem_outputPath _ _) (by decide) rfl,
    FileTree.fileAt?_putEntry_file (by decide) (by simp [entryNamed?]), FileTree.fileAt?,
    FileTree.at?_nil, stockedObjects, Table.get?_insert, Table.get?_insert, Table.get?_empty,
    outputObject, partPath_zero]
  simp only [eq_comm]

/-- Outputs are read, replaced and removed, and relations read and written; an output that is
removed and a relation that was never stored cannot be read. -/
theorem performAll_agrees_stocked :
    let calls : List StoreCall := [.readOutput ⟨3⟩, .readRelation "Person",
      .writeOutput ⟨3⟩ [⟨"Tag", .empty⟩], .readOutput ⟨3⟩, .removeOutput ⟨3⟩, .readOutput ⟨3⟩,
      .writeRelation "Tag" [], .readRelation "Tag", .readRelation "Age"]
    let answers := ((memory stockedObjects).performAll .distributed calls).1.map Except.toOption
    answers.map Option.isSome = [true, true, true, true, true, false, true, true, false] ∧
      answers = ((disk "data" stockedTree).performAll .distributed calls).1.map Except.toOption := by
  intro calls answers
  have single : ∀ call ∈ calls, call.Single := by
    simp [calls, StoreCall.Single]
  have accepts : ∀ call ∈ calls, Accepts "data" (call.object .distributed) := by
    decide +kernel
  exact ⟨by decide +kernel, (performAll_agrees .distributed mirrors_stocked single accepts).1⟩

-- A folder that is still to be made mirrors no objects.
example : Mirrors "data" .empty .empty := by
  have opens : (disk "data" (.folder [("data", .folder [])])).Open := by
    have walked : (FileTree.folder [("data", .folder [])]).walk [] (["data"] ++ ["x"]) =
        some (.entry ["data"] "x" false) := rfl
    exact FileTree.opens_of_walk ⟨_, rfl⟩ ⟨"x", by simp, by decide⟩ walked
  refine .of_entries (by decide) (.missing rfl rfl opens rfl) ⟨List.nodup_nil, by simp⟩
    (fun key => ?_) (by simp)
  rw [FileTree.fileAt?, FileTree.at?_nil]
  rfl

end Storage

end StagedAlgebra
