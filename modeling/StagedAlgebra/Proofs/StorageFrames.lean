import StagedAlgebra.Proofs.FileTrees
import StagedAlgebra.Proofs.StoredOutputs

/-!
# What storing an output changes

Storing the output of a step leaves one object with its content, in memory and in a file tree. The
outputs of other steps stay, and the file of a relation is never written: it stays or is removed.
So whatever is read later as the output of a step is what was stored, if it can be read at all.

## Implementation notes

In memory storing an output is one change to the table of objects (`Table.withOutput`). In a file
tree it is a removal, the making of folders and the writing of a file, each of which may fail;
`exists_of_writeOutput_disk` says once what the tree can be afterwards. `HoldsOutput` and
`HoldsRelation` say where contents are, whether or not the folder of the storage can be entered.
Removing is only sure to remove if it can (`Open`): a path through a folder that is missing leads
nowhere, even if it would come back out of that folder.
-/

namespace StagedAlgebra

/-- The path of the one object that an output is stored as. -/
def outputObject (environment : Environment) (step : StepId) : String :=
  match environment with
  | .distributed => partPath (outputPath .distributed step) 0
  | .standalone => outputPath .standalone step
  | .mock => outputPath .mock step

theorem isAtOrBelow_outputObject (environment : Environment) (step : StepId) :
    isAtOrBelow (outputPath environment step) (outputObject environment step) = true := by
  cases environment with
  | distributed => exact isAtOrBelow_of_isBelow (Storage.isBelow_partPath _ 0)
  | standalone | mock => exact isAtOrBelow_iff.mpr (.inl rfl)

/-- Whether storing an output removes what is at a key. -/
def givesWay (environment : Environment) (step : StepId) (key : String) : Bool :=
  environment = .distributed && isAtOrBelow (outputPath environment step) key

/-- Objects after an output is stored. -/
def Table.withOutput (objects : Table ByteArray) (environment : Environment) (step : StepId)
    (content : ByteArray) : Table ByteArray :=
  (objects.filter fun key _ => !givesWay environment step key).insert
    (outputObject environment step) content

theorem Table.get?_withOutput (objects : Table ByteArray) (environment : Environment)
    (step : StepId) (content : ByteArray) (key : String) :
    (objects.withOutput environment step content).get? key =
      if key = outputObject environment step then some content
      else if givesWay environment step key = true then none else objects.get? key := by
  rw [withOutput, get?_insert,
    get?_filter_key _ fun key => !givesWay environment step key]
  by_cases same : key = outputObject environment step
  · simp [same]
  · by_cases gone : givesWay environment step key = true <;> simp [same, Ne.symm same, gone]

theorem Table.filter_all (objects : Table ByteArray) :
    (objects.filter fun _ _ => true) = objects := by
  apply Table.ext_get?
  intro key
  rw [Table.get?_filter_key _ fun _ => true, if_pos rfl]

theorem Storage.writeOutput_memory (objects : Table ByteArray) (environment : Environment)
    (step : StepId) (records : List Record) :
    (memory objects).writeOutput environment step records =
      (.ok (outputPath environment step),
        memory (objects.withOutput environment step (encodeRecords records))) := by
  cases environment with
  | standalone | mock =>
      simp [writeOutput, write, Table.withOutput, outputObject, givesWay, Table.filter_all,
        Except.map]
  | distributed =>
      simp [writeOutput, delete, write, trimEndOf_outputPath, Table.withOutput, outputObject,
        givesWay, Except.map]

/-- The names of the path of a folder, as they stand in the paths below it. -/
def rootNames (root : String) : List String :=
  if root.isEmpty then []
  else if root.toList.getLast? == some '/' then pathSegments (String.ofList root.toList.dropLast)
  else pathSegments root

theorem pathSegments_joinPath (root path : String) :
    pathSegments (joinPath root path) =
      rootNames root ++ pathSegments (Text.trimStartOf '/' path) := by
  unfold joinPath rootNames
  by_cases empty : root.isEmpty = true
  · have none : root = "" := by simpa using empty
    simp [none]
  · by_cases slash : (root.toList.getLast? == some '/') = true
    · have chars : root = String.ofList root.toList.dropLast ++ "/" := by
        apply String.toList_inj.mp
        have split := List.dropLast_append_getLast? '/' (by simpa using slash)
        simpa using split.symm
      simp only [empty, slash, Bool.or_true, if_true, Bool.false_eq_true, if_false]
      rw [← pathSegments_append, ← chars]
    · simp only [empty, slash, Bool.or_self, Bool.false_eq_true, if_false]
      rw [pathSegments_append]

/-- The place that a path below the path of a folder leads to. -/
def placeOf (root path : String) : List String :=
  (wayOf [] (pathSegments (joinPath root path))).reverse

/-- The place of the folder itself. -/
def folderPlace (root : String) : List String :=
  (wayOf [] (rootNames root)).reverse

/-- The name of the only part of an output. -/
def partName : String := "part-00000"

theorem partPath_zero (folder : String) : partPath folder 0 = folder ++ "/" ++ partName := by
  apply String.toList_inj.mp
  have digits : Text.padLeft '0' 5 (Text.natChars 0) = ['0', '0', '0', '0', '0'] := by decide
  simp [partPath, partName, digits]

theorem plainSegment_partName : PlainSegment partName := by
  decide

theorem trimStartOf_of_head {c d : Char} {s : String} {rest : List Char}
    (h : s.toList = d :: rest) (other : d ≠ c) : Text.trimStartOf c s = s := by
  rw [Text.trimStartOf, h, List.dropWhile_cons_of_neg (by simpa using other), ← h,
    String.ofList_toList]

theorem plainSegment_outputPath (environment : Environment) (step : StepId) :
    PlainSegment (outputPath environment step) := by
  obtain ⟨ending, -, chars⟩ := exists_toList_outputPath environment
  have first := chars step
  refine ⟨?_, ?_, ?_⟩ <;>
    · intro same
      rw [same] at first
      cases first

section Paths

variable (root : String) (environment : Environment) (step : StepId)

theorem trimStartOf_outputPath_append (rest : String) :
    Text.trimStartOf '/' (outputPath environment step ++ rest) =
      outputPath environment step ++ rest := by
  obtain ⟨ending, -, chars⟩ := exists_toList_outputPath environment
  have first : (outputPath environment step ++ rest).toList = 't' :: 'm' :: 'p' ::
      (Text.natChars step.number.toNat ++ ending ++ rest.toList) := by
    simp [chars step]
  exact trimStartOf_of_head first (by decide)

theorem trimStartOf_outputPath :
    Text.trimStartOf '/' (outputPath environment step) = outputPath environment step := by
  have trimmed := trimStartOf_outputPath_append environment step ""
  rwa [String.append_empty] at trimmed

theorem joinPath_outputPath (rest : String) :
    joinPath root (outputPath environment step ++ rest) =
      joinPath root (outputPath environment step) ++ rest := by
  simp only [joinPath, trimStartOf_outputPath_append, trimStartOf_outputPath]
  split
  · rw [String.append_assoc]
  · rw [String.append_assoc, String.append_assoc, String.append_assoc]

theorem pathSegments_output : pathSegments (joinPath root (outputPath environment step)) =
    rootNames root ++ [outputPath environment step] := by
  rw [pathSegments_joinPath, trimStartOf_outputPath,
    pathSegments_of_not_mem (slash_not_mem_outputPath _ _)]

theorem pathSegments_part :
    pathSegments (joinPath root (partPath (outputPath environment step) 0)) =
      (rootNames root ++ [outputPath environment step]) ++ [partName] := by
  have part : pathSegments partName = [partName] := pathSegments_of_not_mem (by decide)
  rw [partPath_zero, pathSegments_joinPath, String.append_assoc, trimStartOf_outputPath_append,
    ← String.append_assoc, pathSegments_append,
    pathSegments_of_not_mem (slash_not_mem_outputPath _ _), part, List.append_assoc]

theorem pathSegments_outputPath_slash :
    pathSegments (outputPath environment step ++ "/") = [outputPath environment step, ""] := by
  have whole : outputPath environment step ++ "/" = outputPath environment step ++ "/" ++ "" := by
    rw [String.append_empty]
  have blank : pathSegments "" = [""] := by decide
  rw [whole, pathSegments_append, pathSegments_of_not_mem (slash_not_mem_outputPath _ _), blank]
  rfl

theorem pathSegments_folder : pathSegments (joinPath root (outputPath environment step ++ "/")) =
    rootNames root ++ outputPath environment step :: [""] := by
  rw [pathSegments_joinPath, trimStartOf_outputPath_append, pathSegments_outputPath_slash]

theorem placeOf_output : placeOf root (outputPath environment step) =
    folderPlace root ++ [outputPath environment step] := by
  rw [placeOf, pathSegments_output, wayOf_append, wayOf_plain (plainSegment_outputPath _ _),
    List.reverse_cons, folderPlace]

theorem placeOf_part : placeOf root (partPath (outputPath environment step) 0) =
    folderPlace root ++ [outputPath environment step, partName] := by
  rw [placeOf, pathSegments_part, wayOf_append, wayOf_append,
    wayOf_plain (plainSegment_outputPath _ _), wayOf_plain plainSegment_partName,
    List.reverse_cons, List.reverse_cons, folderPlace, List.append_assoc]
  rfl

end Paths

/-- The last name of a path ends as the path does. -/
theorem exists_pathSegments (front : List Char) {c : Char} (h : c ≠ '/') :
    ∃ names last, pathSegments (String.ofList (front ++ [c])) =
      names ++ [String.ofList (last ++ [c])] := by
  have split : ∃ names last, (front ++ [c]).splitOn '/' = names ++ [last ++ [c]] := by
    induction front with
    | nil =>
        refine ⟨[], [], ?_⟩
        rw [List.nil_append, List.splitOn_eq_singleton (by simpa using Ne.symm h)]
        rfl
    | cons d rest ih =>
        obtain ⟨names, last, equal⟩ := ih
        rw [List.cons_append, List.splitOn_cons_eq_if_modifyHead, equal]
        split
        · exact ⟨[] :: names, last, rfl⟩
        · cases names with
          | nil => exact ⟨[], d :: last, rfl⟩
          | cons first more => exact ⟨(d :: first) :: more, last, rfl⟩
  obtain ⟨names, last, equal⟩ := split
  exact ⟨names.map String.ofList, last, by simp [pathSegments, equal]⟩

/-- The file of a relation has a name that no output has. -/
theorem exists_segments_relation (root relation : String) :
    ∃ names last, PlainSegment last ∧ last.toList.getLast? = some 'n' ∧
      pathSegments (joinPath root (relationPath relation)) =
        rootNames root ++ (names ++ [last]) := by
  have trimmed : ∃ front, Text.trimStartOf '/' (relationPath relation) =
      String.ofList (front ++ ['n']) := by
    have chars : (relationPath relation).toList =
        (relation.toList ++ ['.', 'j', 's', 'o']) ++ ['n'] := by
      simp [relationPath]
    rw [Text.trimStartOf, chars, List.dropWhile_append]
    split
    · exact ⟨[], rfl⟩
    · exact ⟨_, rfl⟩
  obtain ⟨front, equal⟩ := trimmed
  obtain ⟨names, last, segments⟩ := exists_pathSegments front (c := 'n') (by decide)
  refine ⟨names, String.ofList (last ++ ['n']), ⟨?_, ?_, ?_⟩, by simp, ?_⟩
  · exact fun same => by simpa using congrArg (List.getLast? ∘ String.toList) same
  · exact fun same => by simpa using congrArg (List.getLast? ∘ String.toList) same
  · exact fun same => by simpa using congrArg (List.getLast? ∘ String.toList) same
  · rw [pathSegments_joinPath, equal, segments]

/-- The folder of the object that an output is stored as. -/
def outputFolder (root : String) (environment : Environment) (step : StepId) : List String :=
  match environment with
  | .distributed => folderPlace root ++ [outputPath .distributed step]
  | .standalone | .mock => folderPlace root

/-- The name of the object that an output is stored as. -/
def outputName (environment : Environment) (step : StepId) : String :=
  match environment with
  | .distributed => partName
  | .standalone => outputPath .standalone step
  | .mock => outputPath .mock step

theorem placeOf_outputObject (root : String) (environment : Environment) (step : StepId) :
    placeOf root (outputObject environment step) =
      outputFolder root environment step ++ [outputName environment step] := by
  cases environment with
  | distributed =>
      rw [outputObject, placeOf_part, outputFolder, outputName, List.append_assoc]
      rfl
  | standalone | mock => exact placeOf_output root _ step

theorem getLast?_outputObject (environment : Environment) (step : StepId) :
    (outputObject environment step).toList.getLast? =
      (outputName environment step).toList.getLast? := by
  cases environment with
  | distributed =>
      have last : partName.toList.getLast? = some '0' := by
        decide
      rw [outputObject, partPath_zero, String.toList_append, List.getLast?_append, outputName, last]
      rfl
  | standalone | mock => rfl

theorem getLast?_outputName (environment : Environment) (step : StepId) :
    (outputName environment step).toList.getLast? ≠ some 'n' := by
  have file : ("tmp" ++ step.digits ++ ".tmp").toList =
      ("tmp" ++ step.digits ++ ".tm").toList ++ ['p'] := by
    simp
  cases environment with
  | distributed =>
      rw [outputName]
      decide
  | standalone | mock =>
      rw [outputName, outputPath, file, List.getLast?_concat]
      decide

namespace Storage

variable {s s' : Storage} {environment : Environment} {step other : StepId}
variable {relation root path : String} {content : ByteArray} {records : List Record}
variable {t t' : FileTree}

/-- Writing makes folders and then writes a file, or fails at one of both. -/
theorem exists_of_write_disk {outcome : Except StorageFault Unit}
    (h : (disk root t).write path content = (outcome, s')) :
    ∃ t₁ t₂, s' = disk root t₂ ∧ t.Grows t₁ ∧
      ((∃ fault, outcome = .error fault) ∧ t₂ = t₁ ∨
        outcome = .ok () ∧ t₁.writeFile? (joinPath root path) content = some t₂) := by
  have grows := t.grows_makeFolders [] (pathNames (joinPath root path)).dropLast
  simp only [write] at h
  split at h
  · cases h
    exact ⟨t, t, rfl, .refl t, .inl ⟨⟨_, rfl⟩, rfl⟩⟩
  · split at h
    · rename_i t₁ made
      rw [made] at grows
      cases h
      exact ⟨t₁, t₁, rfl, grows, .inl ⟨⟨_, rfl⟩, rfl⟩⟩
    · rename_i t₁ made
      rw [made] at grows
      split at h
      · rename_i t₂ written
        cases h
        exact ⟨t₁, t₂, rfl, grows, .inr ⟨rfl, written⟩⟩
      · cases h
        exact ⟨t₁, t₁, rfl, grows, .inl ⟨⟨_, rfl⟩, rfl⟩⟩

/-- A tree after what an output would replace is removed from it. -/
inductive Cleared (root : String) (environment : Environment) (step : StepId) (t : FileTree) :
    FileTree → Prop
  /-- A file is replaced where it is. -/
  | replaced (single : environment ≠ .distributed) : Cleared root environment step t t
  /-- No path leads to a folder of parts. -/
  | missing (missing : t.find? (joinPath root (outputPath environment step)) = none) :
      Cleared root environment step t t
  /-- A folder of parts is removed. -/
  | removed (parts : environment = .distributed) : Cleared root environment step t
      (t.withoutEntry (wayOf [] (rootNames root)) (outputPath environment step))

/-- What storing an output does to a file tree. -/
theorem exists_of_writeOutput_disk {outcome : Except StorageFault String}
    (h : (disk root t).writeOutput environment step records = (outcome, s')) :
    ∃ t₁ t₂ t₃, s' = disk root t₃ ∧ Cleared root environment step t t₁ ∧ t₁.Grows t₂ ∧
      ((∃ fault, outcome = .error fault) ∧ t₃ = t₂ ∨ (∃ path, outcome = .ok path) ∧
        t₂.writeFile? (joinPath root (outputObject environment step)) (encodeRecords records) =
          some t₃) := by
  -- All environments write one object, after the distributed one has removed the old parts.
  have writes {t₁ : FileTree} {path : String} (cleared : Cleared root environment step t t₁)
      (written : ((((disk root t₁).write (outputObject environment step)
        (encodeRecords records)).1.map fun _ => path),
          ((disk root t₁).write (outputObject environment step) (encodeRecords records)).2) =
        (outcome, s')) :
      ∃ t₁ t₂ t₃, s' = disk root t₃ ∧ Cleared root environment step t t₁ ∧ t₁.Grows t₂ ∧
      ((∃ fault, outcome = .error fault) ∧ t₃ = t₂ ∨ (∃ path, outcome = .ok path) ∧
        t₂.writeFile? (joinPath root (outputObject environment step)) (encodeRecords records) =
          some t₃) := by
    cases result : (disk root t₁).write (outputObject environment step) (encodeRecords records) with
    | mk first second =>
        obtain ⟨t₂, t₃, rfl, grows, last⟩ := exists_of_write_disk result
        rw [result, Prod.mk.injEq] at written
        refine ⟨t₁, t₂, t₃, written.2.symm, cleared, grows, ?_⟩
        obtain ⟨⟨fault, rfl⟩, same⟩ | ⟨rfl, stored⟩ := last
        · exact .inl ⟨⟨fault, written.1.symm⟩, same⟩
        · exact .inr ⟨⟨path, written.1.symm⟩, stored⟩
  cases environment with
  | standalone | mock =>
      simp only [writeOutput] at h
      exact writes (.replaced (by decide)) h
  | distributed =>
      obtain removed | ⟨removed, missing⟩ :=
        t.remove_plain (plainSegment_outputPath .distributed step)
          (pathSegments_output root .distributed step)
      · simp only [writeOutput, delete, removed] at h
        exact writes (.removed rfl) h
      · simp only [writeOutput, delete, removed] at h
        exact writes (.missing missing) h

/-- The object of an output is written as an entry of its folder. -/
theorem writeFile?_output
    (h : t.writeFile? (joinPath root (outputObject environment step)) content = some t') :
    t' = t.updateFolder (FileTree.putEntry (outputName environment step) (.file content))
        (outputFolder root environment step) ∧
      (∀ entries, t.at? (outputFolder root environment step ++ [outputName environment step]) ≠
        some (.folder entries)) ∧
      (joinPath root (outputObject environment step)).utf8ByteSize ≤ 4095 ∧
      ∃ place, t.walk [] (pathSegments (joinPath root (outputObject environment step))) =
        some place := by
  cases environment with
  | standalone | mock =>
      obtain ⟨equal, no_folder, fits, walked⟩ :=
        FileTree.writeFile?_plain (plainSegment_outputPath _ _) (pathSegments_output root _ step) h
      rw [← pathSegments_output] at walked
      exact ⟨equal, no_folder, fits, walked⟩
  | distributed =>
      obtain ⟨equal, no_folder, fits, walked⟩ :=
        FileTree.writeFile?_plain plainSegment_partName (pathSegments_part root .distributed step) h
      rw [wayOf_append, wayOf_plain (plainSegment_outputPath _ _), List.reverse_cons]
        at equal no_folder
      rw [← pathSegments_part] at walked
      exact ⟨equal, no_folder, fits, walked⟩

/-- The file of a relation has a content. -/
def HoldsRelation (s : Storage) (relation : String) (content : ByteArray) : Prop :=
  match s with
  | .memory objects => objects.get? (relationPath relation) = some content
  | .disk root tree => tree.at? (placeOf root (relationPath relation)) = some (.file content)

theorem holdsRelation_of_read (found : s.read (relationPath relation) = .ok content) :
    s.HoldsRelation relation content := by
  cases s with
  | memory objects =>
      simp only [read] at found
      split at found
      · rename_i stored
        cases found
        exact stored
      · cases found
  | disk root tree =>
      simp only [read, FileTree.content?] at found
      split at found
      · rename_i stored
        split at stored
        · rename_i there
          cases stored
          cases found
          exact FileTree.at?_of_find? there
        · cases stored
      · cases found

theorem exists_read (h : s.readRelation relation = .ok records) :
    ∃ content, s.read (relationPath relation) = .ok content ∧
      decodeRecords (relationPath relation) content = .ok records := by
  unfold readRelation at h
  split at h
  · cases h
  · rename_i content found
    exact ⟨content, found, h⟩

theorem holdsRelation_of_readRelation (h : s.readRelation relation = .ok records) :
    ∃ content, s.HoldsRelation relation content ∧
      decodeRecords (relationPath relation) content = .ok records := by
  obtain ⟨content, found, decoded⟩ := exists_read h
  exact ⟨content, holdsRelation_of_read found, decoded⟩

/-- A relation that is there is read as its content says. -/
theorem readRelation_of_holdsRelation (there : s.contains (relationPath relation) = true)
    (h : s.HoldsRelation relation content) :
    s.readRelation relation = decodeRecords (relationPath relation) content := by
  cases s with
  | memory objects =>
      have stored : objects.get? (relationPath relation) = some content := h
      simp only [readRelation, read, stored]
  | disk root tree =>
      obtain ⟨x, found⟩ := Option.isSome_iff_exists.mp there
      have same : some x = some (.file content) := (FileTree.at?_of_find? found).symm.trans h
      cases same
      simp only [readRelation, read, FileTree.content?, found]

/-- A relation that can be read is there. -/
theorem found_of_readRelation (h : s.readRelation relation = .ok records) :
    s.contains (relationPath relation) = true := by
  cases s with
  | memory objects => exact contains_of_readRelation h
  | disk root t =>
      cases found : t.find? (joinPath root (relationPath relation)) with
      | none => simp [readRelation, read, FileTree.content?, found] at h
      | some x => simp [contains, FileTree.contains, found]

theorem relationPath_ne_outputObject (relation : String) (environment : Environment)
    (step : StepId) : relationPath relation ≠ outputObject environment step := by
  intro same
  apply getLast?_outputName environment step
  rw [← getLast?_outputObject, ← same, relationPath, String.toList_append, List.getLast?_append]
  rfl

theorem Cleared.holdsRelation (h : Cleared root environment step t t')
    (held : (disk root t').HoldsRelation relation content) :
    (disk root t).HoldsRelation relation content := by
  cases h with
  | replaced | missing => exact held
  | removed => exact FileTree.content_of_withoutEntry held

/-- Storing an output does not write the file of a relation. -/
theorem holdsRelation_of_writeOutput {outcome : Except StorageFault String}
    (written : s.writeOutput environment step records = (outcome, s'))
    (held : s'.HoldsRelation relation content) : s.HoldsRelation relation content := by
  cases s with
  | memory objects =>
      rw [writeOutput_memory, Prod.mk.injEq] at written
      rw [← written.2] at held
      have found : (objects.withOutput environment step (encodeRecords records)).get?
          (relationPath relation) = some content := held
      rw [Table.get?_withOutput,
        if_neg (relationPath_ne_outputObject relation environment step)] at found
      split at found
      · cases found
      · exact found
  | disk root t =>
      obtain ⟨t₁, t₂, t₃, rfl, cleared, grows, ⟨-, rfl⟩ | ⟨-, stored⟩⟩ :=
        exists_of_writeOutput_disk written
      · exact cleared.holdsRelation ((grows.content _ _).mp held)
      · obtain ⟨equal, -⟩ := writeFile?_output stored
        obtain ⟨names, last, plain, ends, segments⟩ := exists_segments_relation root relation
        have place : placeOf root (relationPath relation) =
            (wayOf [] (rootNames root ++ names)).reverse ++ [last] := by
          rw [placeOf, segments, ← List.append_assoc, wayOf_append, wayOf_plain plain,
            List.reverse_cons]
        have other : placeOf root (relationPath relation) ≠
            outputFolder root environment step ++ [outputName environment step] := by
          intro same
          rw [place] at same
          have names_eq := (List.append_inj' same rfl).2
          rw [List.singleton_inj] at names_eq
          rw [names_eq] at ends
          exact getLast?_outputName environment step ends
        have before := FileTree.content_of_putEntry equal held other
        exact cleared.holdsRelation ((grows.content _ _).mp before)

/-- The folder of a storage can be entered; in memory there is none. -/
def Open : Storage → Prop
  | .memory _ => True
  | .disk root tree => tree.Opens [] (rootNames root)

theorem open_of_find? {x : FileTree} {names : List String} {last : String}
    (plain : PlainSegment last)
    (segments : pathSegments (joinPath root path) = rootNames root ++ (names ++ [last]))
    (h : t.find? (joinPath root path) = some x) : (disk root t).Open := by
  have there := FileTree.at?_of_find? h
  rw [segments, ← List.append_assoc, wayOf_append, wayOf_plain plain, List.reverse_cons] at there
  have start : t.FolderAt [] := by
    cases place : (wayOf [] (rootNames root ++ names)).reverse ++ [last] with
    | nil => simp at place
    | cons first rest =>
        rw [place] at there
        exact FileTree.folderAt_nil_of_at? there
  cases found : t.place? (joinPath root path) with
  | none => simp [FileTree.find?, found] at h
  | some place =>
      unfold FileTree.place? at found
      split at found
      · rw [segments] at found
        exact FileTree.opens_of_walk start ⟨last, by simp, plain.1⟩ found
      · cases found

theorem open_of_read (h : s.read (relationPath relation) = .ok content) : s.Open := by
  cases s with
  | memory objects => trivial
  | disk root t =>
      obtain ⟨names, last, plain, -, segments⟩ := exists_segments_relation root relation
      cases found : t.find? (joinPath root (relationPath relation)) with
      | none => simp [read, FileTree.content?, found] at h
      | some x => exact open_of_find? plain segments found

theorem open_of_readRelation (h : s.readRelation relation = .ok records) : s.Open := by
  obtain ⟨content, found, -⟩ := exists_read h
  exact open_of_read found

theorem open_of_readOutput (h : s.readOutput environment step = .ok records) : s.Open := by
  cases s with
  | memory objects => trivial
  | disk root t =>
      have segments := pathSegments_output root environment step
      rw [← List.nil_append [outputPath environment step]] at segments
      cases found : t.find? (joinPath root (outputPath environment step)) with
      | none =>
          cases environment <;>
            simp [readOutput, readParts, read, contains, FileTree.contains, FileTree.content?,
              found] at h
      | some x => exact open_of_find? (plainSegment_outputPath _ _) segments found

/-- The output of a step is stored as one object with a content. -/
def HoldsOutput (s : Storage) (environment : Environment) (step : StepId) (content : ByteArray) :
    Prop :=
  match s with
  | .memory objects =>
    objects.get? (outputObject environment step) = some content ∧
      (environment = .distributed → ∀ key, isAtOrBelow (outputPath environment step) key = true →
        key ∈ objects.keys → key = outputObject environment step)
  | .disk root tree =>
    (joinPath root (outputObject environment step)).utf8ByteSize ≤ 4095 ∧
      tree.at? (outputFolder root environment step ++ [outputName environment step]) =
        some (.file content) ∧
      (environment = .distributed →
        tree.filesAt (outputFolder root environment step) = [[partName]])

theorem holdsOutput_withOutput (objects : Table ByteArray) (environment : Environment)
    (step : StepId) (content : ByteArray) :
    (memory (objects.withOutput environment step content)).HoldsOutput environment step
      content := by
  refine ⟨by rw [Table.get?_withOutput, if_pos rfl], fun parts key inside member => ?_⟩
  subst parts
  by_contra other
  rw [Table.mem_keys_iff, Table.get?_withOutput, if_neg other,
    if_pos (by simp [givesWay, inside])] at member
  cases member

/-- The folder of an output is there if a walk gets through it. -/
theorem exists_outputFolder (start : t.FolderAt []) {place : Place}
    (h : t.walk [] (pathSegments (joinPath root (outputObject environment step))) = some place) :
    ∃ entries, t.at? (outputFolder root environment step) = some (.folder entries) := by
  cases environment with
  | standalone | mock =>
      rw [outputObject, pathSegments_output] at h
      refine (FileTree.opens_of_walk start ⟨_, List.mem_singleton_self _, ?_⟩ h).1
      exact (plainSegment_outputPath _ _).1
  | distributed =>
      rw [outputObject, pathSegments_part] at h
      have folder := (FileTree.opens_of_walk start ⟨_, by simp, plainSegment_partName.1⟩ h).1
      rw [wayOf_append, wayOf_plain (plainSegment_outputPath _ _), FileTree.FolderAt,
        List.reverse_cons] at folder
      exact folder

/-- In a folder that can be entered, what no path leads to is not there. -/
theorem at?_of_missing (opens : (disk root t).Open)
    (fits : (joinPath root (outputPath environment step)).utf8ByteSize ≤ 4095)
    (isName : isFileName (outputPath environment step) = true)
    (h : t.find? (joinPath root (outputPath environment step)) = none) :
    t.at? (folderPlace root ++ [outputPath environment step]) = none := by
  have plain := plainSegment_outputPath environment step
  have place : t.place? (joinPath root (outputPath environment step)) =
      some (.entry (wayOf [] (rootNames root)) (outputPath environment step) false) := by
    rw [FileTree.place?, if_pos fits, pathSegments_output, opens.2 _ ⟨_, by simp, plain.1⟩]
    exact FileTree.walk_of_isFileName plain isName (by simp)
  simp only [FileTree.find?, place, List.reverse_cons] at h
  rw [folderPlace]
  split at h
  · cases h
  · exact h

/-- Storing an output replaces all that was stored for its step before. -/
theorem holdsOutput_of_writeOutput (opens : s.Open) {written : String}
    (h : s.writeOutput environment step records = (.ok written, s')) :
    s'.HoldsOutput environment step (encodeRecords records) := by
  cases s with
  | memory objects =>
      rw [writeOutput_memory, Prod.mk.injEq] at h
      rw [← h.2]
      exact holdsOutput_withOutput ..
  | disk root t =>
      obtain ⟨t₁, t₂, t₃, rfl, cleared, grows, ⟨⟨fault, failed⟩, -⟩ | ⟨-, stored⟩⟩ :=
        exists_of_writeOutput_disk h
      · cases failed
      obtain ⟨rfl, no_folder, fits, place, walked⟩ := writeFile?_output stored
      have start : t₁.FolderAt [] := by
        have before : t.FolderAt [] := opens.1.root
        cases cleared with
        | replaced | missing => exact before
        | removed => exact FileTree.folderAt_updateFolder _ before
      obtain ⟨entries, folder⟩ := exists_outputFolder (grows.folder start) walked
      refine ⟨fits, FileTree.at?_putEntry folder _, fun parts => ?_⟩
      subst parts
      have free : t₁.at? (outputFolder root .distributed step) = none := by
        cases cleared with
        | replaced single => exact absurd rfl single
        | missing missing =>
            rw [outputObject, pathSegments_part, List.append_assoc] at walked
            have isName := FileTree.isFileName_of_walk (plainSegment_outputPath _ _) walked
            rw [outputObject, partPath_zero, String.append_assoc, joinPath_outputPath,
              String.utf8ByteSize_append] at fits
            exact at?_of_missing opens (by omega) isName missing
        | removed => exact FileTree.at?_withoutEntry _ _ _ []
      refine FileTree.filesAt_putEntry folder ?_ no_folder _
      rw [grows.files, FileTree.filesAt, free]
      rfl

/-- What is at or below the output of another step is not changed by writing an output. -/
theorem at?_writeFile?_other (apart : other ≠ step)
    (h : t.writeFile? (joinPath root (outputObject environment step)) content = some t')
    (more : List String) :
    t'.at? (folderPlace root ++ outputPath environment other :: more) =
      t.at? (folderPlace root ++ outputPath environment other :: more) := by
  have names : outputPath environment other ≠ outputPath environment step :=
    fun same => apart (outputPath_injective same)
  obtain ⟨rfl, -⟩ := writeFile?_output h
  cases environment with
  | standalone | mock =>
      apply FileTree.at?_updateFolder_entry
      intro entries
      rw [FileTree.entryNamed?_putEntry, outputName, if_neg names]
  | distributed =>
      apply FileTree.at?_updateFolder_apart
      · rw [outputFolder, List.prefix_append_right_inj, List.cons_prefix_cons]
        exact fun same => names same.1.symm
      · rw [outputFolder, List.prefix_append_right_inj, List.cons_prefix_cons]
        exact fun same => names same.1

theorem Cleared.at?_other (h : Cleared root environment step t t') (apart : other ≠ step)
    (more : List String) :
    t'.at? (folderPlace root ++ outputPath environment other :: more) =
      t.at? (folderPlace root ++ outputPath environment other :: more) := by
  cases h with
  | replaced | missing => rfl
  | removed =>
      apply FileTree.at?_updateFolder_entry
      exact FileTree.entryNamed?_filter fun same => apart (outputPath_injective same)

/-- Storing an output leaves the outputs of other steps as they are. -/
theorem HoldsOutput.writeOutput (held : s.HoldsOutput environment other content)
    (apart : other ≠ step) {outcome : Except StorageFault String}
    (written : s.writeOutput environment step records = (outcome, s')) :
    s'.HoldsOutput environment other content := by
  cases s with
  | memory objects =>
      rw [writeOutput_memory, Prod.mk.injEq] at written
      rw [← written.2]
      obtain ⟨stored, only⟩ := held
      have frame (key : String) (inside : isAtOrBelow (outputPath environment other) key = true) :
          (objects.withOutput environment step (encodeRecords records)).get? key =
            objects.get? key := by
        have outside : isAtOrBelow (outputPath environment step) key = false := by
          rw [← Bool.not_eq_true]
          exact fun below => apart (step_eq_of_isAtOrBelow inside below)
        have different : key ≠ outputObject environment step := by
          rintro rfl
          rw [isAtOrBelow_outputObject] at outside
          cases outside
        rw [Table.get?_withOutput, if_neg different, if_neg (by simp [givesWay, outside])]
      refine ⟨by rw [frame _ (isAtOrBelow_outputObject ..), stored],
        fun parts key inside member => ?_⟩
      apply only parts key inside
      rwa [Table.mem_keys_iff, frame key inside, ← Table.mem_keys_iff] at member
  | disk root t =>
      obtain ⟨fits, stored, only⟩ := held
      obtain ⟨t₁, t₂, t₃, rfl, cleared, grows, last⟩ := exists_of_writeOutput_disk written
      have final (more : List String) :
          t₃.at? (folderPlace root ++ outputPath environment other :: more) =
            t₂.at? (folderPlace root ++ outputPath environment other :: more) := by
        obtain ⟨-, rfl⟩ | ⟨-, wrote⟩ := last
        · rfl
        · exact at?_writeFile?_other apart wrote more
      cases environment with
      | standalone | mock =>
          refine ⟨fits, ?_, fun parts => absurd parts (by decide)⟩
          have kept := (grows.content _ content).mpr ((cleared.at?_other apart []).trans stored)
          exact (final []).trans kept
      | distributed =>
          have place : outputFolder root .distributed other ++ [partName] =
              folderPlace root ++ outputPath .distributed other :: [partName] := by
            rw [outputFolder, List.append_assoc]
            rfl
          refine ⟨fits, ?_, fun parts => ?_⟩
          · rw [outputName, place] at stored ⊢
            rw [final [partName], grows.content, cleared.at?_other apart]
            exact stored
          · have before := only parts
            rw [FileTree.filesAt, outputFolder] at before ⊢
            rw [final [], ← FileTree.filesAt, grows.files, FileTree.filesAt,
              cleared.at?_other apart []]
            exact before

/-- A file that is read has the content that is at its place. -/
theorem read_disk (held : t.at? (placeOf root path) = some (.file content)) {found : ByteArray}
    (h : (disk root t).read path = .ok found) : found = content := by
  simp only [read, FileTree.content?] at h
  split at h
  · rename_i other stored
    cases h
    split at stored
    · rename_i same there
      cases stored
      have equal := (FileTree.at?_of_find? there).symm.trans held
      cases equal
      rfl
    · cases stored
  · cases h

/-- The path of a folder for parts is shorter than that of a part. -/
theorem utf8ByteSize_folder_le (root : String) (step : StepId) :
    (joinPath root (outputPath .distributed step ++ "/")).utf8ByteSize ≤
      (joinPath root (outputObject .distributed step)).utf8ByteSize := by
  rw [outputObject, partPath_zero, String.append_assoc, joinPath_outputPath, joinPath_outputPath,
    String.utf8ByteSize_append, String.utf8ByteSize_append, String.utf8ByteSize_append]
  omega

/-- The files below a folder for parts are listed with its name, in order. -/
theorem list_folder (opens : (disk root t).Open)
    (isName : isFileName (outputPath environment step) = true)
    (short : (joinPath root (outputPath environment step ++ "/")).utf8ByteSize ≤ 4095)
    {entries : List (String × FileTree)}
    (folder : t.at? (folderPlace root ++ [outputPath environment step]) = some (.folder entries)) :
    (disk root t).list (outputPath environment step ++ "/") =
      ((FileTree.folder entries).files.map fun names =>
        "/".intercalate (outputPath environment step :: names)).mergeSort
          fun a b => decide (a ≤ b) := by
  have plain := plainSegment_outputPath environment step
  have place : t.place? (joinPath root (outputPath environment step ++ "/")) =
      some (.entry (wayOf [] (rootNames root)) (outputPath environment step) true) := by
    rw [FileTree.place?, if_pos short, pathSegments_folder, opens.2 _ ⟨_, by simp, plain.1⟩]
    exact FileTree.walk_of_isFileName plain isName (by simp)
  have names : pathNames (outputPath environment step ++ "/") = [outputPath environment step] := by
    simp [pathNames, pathSegments_outputPath_slash, plain.1, plain.2.1]
  have there : t.at? (outputPath environment step :: wayOf [] (rootNames root)).reverse =
      some (.folder entries) := by
    rw [List.reverse_cons]
    exact folder
  simp only [list, FileTree.find?, place, there, names, List.singleton_append]

/-- The only part of an output is listed alone. -/
theorem list_disk (fits : (joinPath root (outputObject .distributed step)).utf8ByteSize ≤ 4095)
    (only : t.filesAt (outputFolder root .distributed step) = [[partName]])
    (there : (disk root t).contains (outputPath .distributed step) = true) :
    (disk root t).list (outputPath .distributed step ++ "/") =
      [outputObject .distributed step] := by
  have plain := plainSegment_outputPath .distributed step
  obtain ⟨x, found⟩ := Option.isSome_iff_exists.mp there
  have segments := pathSegments_output root .distributed step
  rw [← List.nil_append [outputPath .distributed step]] at segments
  have opens : t.Opens [] (rootNames root) := open_of_find? plain segments found
  have isName : isFileName (outputPath .distributed step) = true := by
    cases place : t.place? (joinPath root (outputPath .distributed step)) with
    | none => simp [FileTree.find?, place] at found
    | some target =>
        obtain ⟨-, -, walked⟩ :=
          FileTree.place?_plain plain (pathSegments_output root .distributed step) place
        exact FileTree.isFileName_of_walk plain walked
  have short := (utf8ByteSize_folder_le root step).trans fits
  obtain ⟨entries, folder, files⟩ : ∃ entries,
      t.at? (folderPlace root ++ [outputPath .distributed step]) = some (.folder entries) ∧
        (FileTree.folder entries).files = [[partName]] := by
    rw [FileTree.filesAt, outputFolder] at only
    cases there : t.at? (folderPlace root ++ [outputPath .distributed step]) with
    | none => simp [there] at only
    | some y =>
        rw [there] at only
        cases y with
        | file other => exact absurd only (by simp [FileTree.files])
        | folder entries => exact ⟨entries, rfl, only⟩
  have joined : "/".intercalate [outputPath .distributed step, partName] =
      partPath (outputPath .distributed step) 0 := by
    apply String.toList_inj.mp
    simp [partPath_zero]
  rw [list_folder opens isName short folder, files, List.map_singleton, List.mergeSort_singleton,
    joined, outputObject]

/-- Whether the object of an output is found where it is sought. -/
def findsOutput (s : Storage) (environment : Environment) (step : StepId) : Bool :=
  (environment != .distributed || s.contains (outputPath environment step)) &&
    (s.read (outputObject environment step)).isOk

theorem read_outputObject_memory {objects : Table ByteArray}
    (held : (memory objects).HoldsOutput environment step content) :
    (memory objects).read (outputObject environment step) = .ok content ∧
      (memory objects).contains (outputPath environment step) = true := by
  have stored : objects.get? (outputObject environment step) = some content := held.1
  have member : outputObject environment step ∈ objects.keys :=
    Table.mem_keys_iff.mpr (Option.isSome_of_eq_some stored)
  refine ⟨by simp only [read, stored], ?_⟩
  rw [contains, trimEndOf_outputPath, List.any_eq_true]
  exact ⟨_, member, isAtOrBelow_outputObject environment step⟩

/-- The parts that are read for an output are its one object, if that is found. -/
theorem readOutput_eq_readParts (held : s.HoldsOutput environment step content)
    (found : environment = .distributed → s.contains (outputPath environment step) = true) :
    s.readOutput environment step = s.readParts [outputObject environment step] := by
  cases environment with
  | standalone | mock => rfl
  | distributed =>
      have there := found rfl
      cases s with
      | memory objects =>
          apply readOutput_of_only_part
          intro key inside
          constructor
          · exact held.2 rfl key inside
          · rintro rfl
            rw [Table.mem_keys_iff]
            exact Option.isSome_of_eq_some held.1
      | disk root t =>
          simp only [readOutput, there, if_true, list_disk held.1 (held.2.2 rfl) there]

/-- An output is read as its content says if it is found, and cannot be read otherwise. -/
theorem readOutput_of_holdsOutput (held : s.HoldsOutput environment step content) :
    s.findsOutput environment step = true ∧
        s.readOutput environment step =
          decodeRecords (outputObject environment step) content ∨
      s.findsOutput environment step = false ∧
        ∃ fault, s.readOutput environment step = .error fault := by
  by_cases there : environment = .distributed → s.contains (outputPath environment step) = true
  · have finds : s.findsOutput environment step =
        (s.read (outputObject environment step)).isOk := by
      unfold findsOutput
      by_cases parts : environment = .distributed
      · simp [there parts]
      · simp [parts]
    rw [finds, readOutput_eq_readParts held there]
    cases found : s.read (outputObject environment step) with
    | error fault => exact .inr ⟨rfl, fault, by simp [readParts, found]⟩
    | ok other =>
        have same : other = content := by
          cases s with
          | memory objects =>
              exact Except.ok.inj (found.symm.trans (read_outputObject_memory held).1)
          | disk root t =>
              refine read_disk ?_ found
              rw [placeOf_outputObject]
              exact held.2.1
        rw [readParts_of_read found, same]
        exact .inl ⟨rfl, rfl⟩
  · rw [Classical.not_imp] at there
    obtain ⟨rfl, missing⟩ := there
    rw [Bool.not_eq_true] at missing
    exact .inr ⟨by simp [findsOutput, missing], _, by simp [readOutput, missing]; rfl⟩

theorem decode_of_readOutput (held : s.HoldsOutput environment step content)
    (h : s.readOutput environment step = .ok records) :
    ∃ path, decodeRecords path content = .ok records := by
  obtain ⟨-, equal⟩ | ⟨-, fault, failed⟩ := readOutput_of_holdsOutput held
  · exact ⟨_, equal.symm.trans h⟩
  · rw [failed] at h
    cases h

end Storage

end StagedAlgebra
