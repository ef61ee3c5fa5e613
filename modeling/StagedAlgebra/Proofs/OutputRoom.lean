import Mathlib.Data.Nat.Digits.Defs
import StagedAlgebra.Proofs.EngineRuns
import StagedAlgebra.Proofs.FileShapes
import StagedAlgebra.Proofs.FolderPaths

/-!
# Room for outputs

In memory every output can be stored. In a file tree a path may be too long, a folder may stand
where a file is to be written, and removing an old output may cut off the way to a relation. A
storage has room for the outputs of a graph if none of this happens. Then they can be stored in any
order, are found again, and leave the relations as they are (`Serves`).

So two storages with room behave alike, whatever else they hold, and one may be in memory and the
other in a file tree. Two file trees without room behave alike if they are of one shape.
-/

namespace StagedAlgebra

theorem utf8ByteSize_le (s : String) : s.utf8ByteSize ≤ 4 * s.toList.length := by
  have chars (cs : List Char) : (String.ofList cs).utf8ByteSize ≤ 4 * cs.length := by
    induction cs with
    | nil => simp
    | cons c rest ih =>
        have size := c.utf8Size_le_four
        rw [String.ofList_cons, String.utf8ByteSize_append, String.utf8ByteSize_singleton,
          List.length_cons]
        omega
  simpa using chars s.toList

/-- The name of an output is short enough for a file. -/
theorem isFileName_outputPath (environment : Environment) (step : StepId) :
    isFileName (outputPath environment step) = true := by
  have digits : (Text.natChars step.number.toNat).length ≤ 20 :=
    Nat.toDigits_length 10 _ 20 (by decide) (by have := step.number.toNat_lt; omega)
  have zero : '\x00' ∉ Text.natChars step.number.toNat :=
    fun h => absurd (Text.isDigit_of_mem_natChars h) (by decide)
  have size := utf8ByteSize_le (outputPath environment step)
  rw [isFileName, Bool.and_eq_true, decide_eq_true_eq]
  cases environment <;>
    simp_all [outputPath, StepId.digits] <;> omega

namespace Storage

variable {s s' : Storage} {g : StageGraph} {environment : Environment} {step : StepId}
variable {stage : Stage} {relation root path name : String} {t t' : FileTree}
variable {way names : List String} {content : ByteArray} {records : List Record}

theorem Cleared.keepsAt (h : Cleared root environment step t t')
    (apart : ¬ (folderPlace root ++ [outputPath environment step]) <+: way.reverse) :
    t.KeepsAt t' way := by
  cases h with
  | replaced | missing => exact (FileTree.Grows.refl t).keepsAt way
  | removed =>
      exact FileTree.keepsAt_updateFolder (fun _ different => FileTree.entryNamed?_filter different)
        apart

/-- Storing an output keeps what is neither at its place nor below it. -/
theorem keepsAt_of_writeOutput {outcome : Except StorageFault String}
    (written : (disk root t).writeOutput environment step records = (outcome, disk root t'))
    (apart : ¬ (folderPlace root ++ [outputPath environment step]) <+: way.reverse) :
    t.KeepsAt t' way := by
  obtain ⟨t₁, t₂, t₃, same, cleared, grows, last⟩ := exists_of_writeOutput_disk written
  obtain ⟨-, rfl⟩ := disk.inj same
  have before := (cleared.keepsAt apart).trans (grows.keepsAt way)
  obtain ⟨-, rfl⟩ | ⟨-, stored⟩ := last
  · exact before
  · obtain ⟨rfl, -⟩ := writeFile?_output stored
    have above : (folderPlace root ++ [outputPath environment step]) <+:
        outputFolder root environment step ++ [outputName environment step] := by
      cases environment with
      | standalone | mock => exact List.prefix_refl _
      | distributed => exact List.prefix_append ..
    refine before.trans (FileTree.keepsAt_updateFolder (fun other different entries => ?_)
      fun below => apart (above.trans below))
    rw [FileTree.entryNamed?_putEntry, if_neg different]

theorem read_of_keepsAt (found : (disk root t).read path = .ok content)
    (kept : ∀ seen, seen <+: pathSegments (joinPath root path) → t.KeepsAt t' (wayOf [] seen)) :
    (disk root t').read path = .ok content := by
  have held : t.content? (joinPath root path) = some content := by
    simp only [read] at found
    split at found
    · rename_i held
      rw [held, Except.ok.inj found]
    · cases found
  simp only [read, FileTree.content?_of_keepsAt held kept]

/-- A file is written in a folder that can be entered once the folders before it are made. -/
theorem write_disk_of_opens (plain : PlainSegment name)
    (segments : pathSegments (joinPath root path) = names ++ [name])
    (made : t.makeFolders [] (leadingNames names) = (t', true)) (opens : t'.Opens [] names)
    (fits : isFileName name = true) (short : (joinPath root path).utf8ByteSize ≤ 4095)
    (free : ¬ t'.FolderAt (name :: wayOf [] names)) :
    (disk root t).write path content = (.ok (), disk root
      (t'.updateFolder (FileTree.putEntry name (.file content)) (wayOf [] names).reverse)) := by
  simp only [write, dropLast_pathNames plain segments, opens.clean, made,
    FileTree.writeFile?_of_opens plain fits short segments opens free, Bool.false_eq_true, if_false]

theorem writeOutput_disk_single (single : environment ≠ .distributed) (opens : (disk root t).Open)
    (short : (joinPath root (outputObject environment step)).utf8ByteSize ≤ 4095)
    (free : ¬ t.FolderAt (outputPath environment step :: wayOf [] (rootNames root))) :
    (disk root t).writeOutput environment step records = (.ok (outputPath environment step),
      disk root (t.updateFolder (FileTree.putEntry (outputPath environment step)
        (.file (encodeRecords records))) (folderPlace root))) := by
  have object : outputObject environment step = outputPath environment step := by
    cases environment <;> first | rfl | exact absurd rfl single
  rw [object] at short
  have segments := pathSegments_output root environment step
  have made := FileTree.makeFolders_of_opens opens.1.root short segments opens
  have wrote (content : ByteArray) :
      (disk root t).write (outputPath environment step) content = _ :=
    write_disk_of_opens (plainSegment_outputPath environment step) segments made opens
      (isFileName_outputPath environment step) short free
  cases environment with
  | distributed => exact absurd rfl single
  | standalone | mock =>
      simp only [writeOutput, wrote]
      rfl

/-- In a folder that is there, or is made first, an output without an old folder of parts is
written as that folder and its part. -/
theorem write_part {t₁ : FileTree}
    (made : t.makeFolders [] (leadingNames (rootNames root)) = (t₁, true))
    (opens : (disk root t₁).Open)
    (short : (joinPath root (outputObject .distributed step)).utf8ByteSize ≤ 4095)
    (missing : t₁.at? (folderPlace root ++ [outputPath .distributed step]) = none)
    (content : ByteArray) :
    (disk root t).write (outputObject .distributed step) content =
      (.ok (), disk root ((t₁.updateFolder (FileTree.putEntry (outputPath .distributed step)
        (.folder [])) (folderPlace root)).updateFolder (FileTree.putEntry partName (.file content))
          (folderPlace root ++ [outputPath .distributed step]))) := by
  have plain := plainSegment_outputPath .distributed step
  have fits := isFileName_outputPath .distributed step
  have segments := pathSegments_part root .distributed step
  have start := opens.1.root
  have whole : pathSegments (joinPath root (outputObject .distributed step)) =
      rootNames root ++ outputPath .distributed step :: [partName] := by
    rw [outputObject, segments, List.append_assoc, List.singleton_append]
  have there := FileTree.makeFolders_of_opens start short whole opens
  have below := FileTree.makeFolders_of_missing start short whole opens plain fits missing
  have kept : leadingNames (rootNames root ++ [outputPath .distributed step]) =
      leadingNames (rootNames root) ++ [outputPath .distributed step] := by
    simp [leadingNames, plain.1, plain.2.1]
  rw [kept, FileTree.makeFolders_append, there, ← made, ← FileTree.makeFolders_append, ← kept]
    at below
  have grows := FileTree.grows_updateFolder missing
  obtain ⟨entries, folder⟩ := opens.1
  have new : (t₁.updateFolder (FileTree.putEntry (outputPath .distributed step) (.folder []))
      (folderPlace root)).at? (folderPlace root ++ [outputPath .distributed step]) =
        some (.folder []) :=
    FileTree.at?_putEntry folder _
  have still := FileTree.Opens.keepsAt opens (grows.folder start) grows.keepsAt
  have opens' := still.concat plain fits ⟨[], by rw [List.reverse_cons]; exact new⟩
  have place : (wayOf [] (rootNames root ++ [outputPath .distributed step])).reverse =
      folderPlace root ++ [outputPath .distributed step] := by
    rw [wayOf_append, wayOf_plain plain, List.reverse_cons, folderPlace]
  rw [← place]
  refine write_disk_of_opens plainSegment_partName segments below opens' (by decide) short ?_
  rintro ⟨others, found⟩
  rw [List.reverse_cons, place, FileTree.at?_append, new] at found
  cases found

theorem writeOutput_of_write_part {s₁ s₂ : Storage}
    (removed : s.delete (outputPath .distributed step) = (.ok (), s₁))
    (wrote : s₁.write (outputObject .distributed step) (encodeRecords records) = (.ok (), s₂)) :
    s.writeOutput .distributed step records = (.ok (outputPath .distributed step), s₂) := by
  rw [outputObject] at wrote
  simp only [writeOutput, removed, wrote]
  rfl

/-- A path below a folder keeps away from the output of a step: its way never comes to the place
of the output or below it. -/
def KeepsAway (root : String) (environment : Environment) (step : StepId) (path : String) : Prop :=
  ∀ seen ∈ (pathSegments (joinPath root path)).inits,
    ¬ (folderPlace root ++ [outputPath environment step]) <+: (wayOf [] seen).reverse

instance (root : String) (environment : Environment) (step : StepId) (path : String) :
    Decidable (KeepsAway root environment step path) :=
  inferInstanceAs (Decidable (∀ _ ∈ _, _))

/-- A folder of a file tree has room for the outputs of a graph. -/
structure RoomBelow (g : StageGraph) (environment : Environment) (root : String) (t : FileTree) :
    Prop where
  /-- Their paths are not too long. -/
  short : ∀ s ∈ g.stages, Engine.storesOutput s = true →
    (joinPath root (outputObject environment s.step)).utf8ByteSize ≤ 4095
  /-- No folder stands where a file is to be written; a folder of parts is removed first. -/
  free : environment ≠ .distributed → ∀ s ∈ g.stages, Engine.storesOutput s = true →
    ¬ t.FolderAt (outputPath environment s.step :: wayOf [] (rootNames root))
  /-- The relations are not reached through them. -/
  apart : ∀ s ∈ g.stages, Engine.storesOutput s = true → ∀ relation ∈ g.relations,
    KeepsAway root environment s.step (relationPath relation)

/-- A storage has room for the outputs of a graph beside the relations. -/
def HasRoom (g : StageGraph) (environment : Environment) : Storage → Prop
  | .memory _ => g.KeepsRelations environment
  | .disk root t => RoomBelow g environment root t

/-- A storage has room for the outputs of a graph and can be asked for its relations. -/
structure Serves (g : StageGraph) (environment : Environment) (s : Storage) : Prop where
  /-- There is room. -/
  room : s.HasRoom g environment
  /-- The relations can be read. -/
  reads : ∀ relation ∈ g.relations, ∃ content, s.read (relationPath relation) = .ok content

section Serves

variable (source : g.relations ≠ [])

include source in
theorem Serves.open (h : s.Serves g environment) : s.Open := by
  obtain ⟨relation, member⟩ := List.exists_mem_of_ne_nil _ source
  obtain ⟨content, found⟩ := h.reads relation member
  exact open_of_read found

theorem RoomBelow.kept (room : RoomBelow g environment root t) (member : stage ∈ g.stages)
    (stores : Engine.storesOutput stage = true) {relation : String} (known : relation ∈ g.relations)
    (kept : ∀ way, ¬ (folderPlace root ++ [outputPath environment stage.step]) <+: way.reverse →
      t.KeepsAt t' way)
    (found : (disk root t).read (relationPath relation) = .ok content) :
    (disk root t').read (relationPath relation) = .ok content :=
  read_of_keepsAt found fun seen front =>
    kept _ (room.apart stage member stores relation known seen ((List.mem_inits ..).mpr front))

include source in
theorem Serves.exists_writeOutput_disk (h : (disk root t).Serves g environment)
    (member : stage ∈ g.stages) (stores : Engine.storesOutput stage = true) :
    ∃ t', (disk root t).writeOutput environment stage.step records =
      (.ok (outputPath environment stage.step), disk root t') := by
  have room : RoomBelow g environment root t := h.room
  have short := room.short stage member stores
  have opens := h.open source
  by_cases parts : environment = .distributed
  · subst parts
    -- The folder can still be entered after an old output is removed.
    have still {t₁ : FileTree} (cleared : Cleared root .distributed stage.step t t₁) :
        (disk root t₁).Open := by
      obtain ⟨relation, known⟩ := List.exists_mem_of_ne_nil _ source
      obtain ⟨content, found⟩ := h.reads relation known
      exact open_of_read (room.kept member stores known (fun _ => cleared.keepsAt) found)
    have writes {t₁ : FileTree} (cleared : Cleared root .distributed stage.step t t₁)
        (missing : t₁.at? (folderPlace root ++ [outputPath .distributed stage.step]) = none)
        (removed : (disk root t).delete (outputPath .distributed stage.step) =
          (.ok (), disk root t₁)) :
        ∃ t', (disk root t).writeOutput .distributed stage.step records =
          (.ok (outputPath .distributed stage.step), disk root t') := by
      have opens := still cleared
      have made := FileTree.makeFolders_of_opens opens.1.root short
        (by rw [outputObject, pathSegments_part, List.append_assoc]) opens
      exact ⟨_, writeOutput_of_write_part removed
        (write_part made opens short missing (encodeRecords records))⟩
    obtain removed | ⟨removed, missing⟩ :=
      t.remove_plain (plainSegment_outputPath .distributed stage.step)
        (pathSegments_output root .distributed stage.step)
    · exact writes (.removed rfl) (FileTree.at?_withoutEntry _ _ _ [])
        (by simp only [delete, removed])
    · refine writes (.missing missing) (at?_of_missing opens ?_ (isFileName_outputPath ..) missing)
        (by simp only [delete, removed])
      rw [outputObject, partPath_zero, String.append_assoc, joinPath_outputPath,
        String.utf8ByteSize_append] at short
      omega
  · exact ⟨_, writeOutput_disk_single parts opens short (room.free parts stage member stores)⟩

include source in
/-- The folders in the way of other outputs are not more after one is stored. -/
theorem Serves.free_of_writeOutput (h : (disk root t).Serves g environment)
    (member : stage ∈ g.stages) (stores : Engine.storesOutput stage = true)
    (single : environment ≠ .distributed) {outcome : Except StorageFault String}
    (written : (disk root t).writeOutput environment stage.step records = (outcome, disk root t'))
    {other : Stage} (known : other ∈ g.stages) (stores' : Engine.storesOutput other = true) :
    ¬ t'.FolderAt (outputPath environment other.step :: wayOf [] (rootNames root)) := by
  have room : RoomBelow g environment root t := h.room
  rw [writeOutput_disk_single single (h.open source) (room.short stage member stores)
    (room.free single stage member stores), Prod.mk.injEq] at written
  obtain ⟨-, rfl⟩ := disk.inj written.2
  by_cases same : other.step = stage.step
  · rintro ⟨entries, found⟩
    obtain ⟨folder, there⟩ := (h.open source).1
    rw [same, List.reverse_cons] at found
    cases (FileTree.at?_putEntry there _).symm.trans found
  · refine fun found => room.free single other known stores' ?_
    have names : outputPath environment other.step ≠ outputPath environment stage.step :=
      fun equal => same (outputPath_injective equal)
    unfold FileTree.FolderAt at found ⊢
    rw [List.reverse_cons] at found ⊢
    rwa [folderPlace, FileTree.at?_updateFolder_entry] at found
    intro entries
    rw [FileTree.entryNamed?_putEntry, if_neg names]

include source in
/-- An output can be stored, and then the storage serves as before. -/
theorem Serves.writeOutput (h : s.Serves g environment) (member : stage ∈ g.stages)
    (stores : Engine.storesOutput stage = true) (records : List Record) :
    (s.writeOutput environment stage.step records).1 = .ok (outputPath environment stage.step) ∧
      (s.writeOutput environment stage.step records).2.Serves g environment := by
  cases s with
  | memory objects =>
      have apart : g.KeepsRelations environment := h.room
      rw [writeOutput_memory]
      refine ⟨rfl, apart, fun relation known => ?_⟩
      obtain ⟨content, found⟩ := h.reads relation known
      have outside : givesWay environment stage.step (relationPath relation) = false := by
        simp [givesWay, apart stage member stores relation known]
      refine ⟨content, ?_⟩
      rwa [read, Table.get?_withOutput,
        if_neg (relationPath_ne_outputObject relation environment stage.step), outside]
  | disk root t =>
      have room : RoomBelow g environment root t := h.room
      obtain ⟨t', written⟩ := h.exists_writeOutput_disk source member stores
      rw [written]
      refine ⟨rfl, ⟨room.short, fun single other known stores' => ?_, room.apart⟩,
        fun relation known => ?_⟩
      · exact h.free_of_writeOutput source member stores single written known stores'
      · obtain ⟨content, found⟩ := h.reads relation known
        exact ⟨content, room.kept member stores known (fun _ => keepsAt_of_writeOutput written)
          found⟩

include source in
/-- An output that is stored is found. -/
theorem Serves.findsOutput (h : s.Serves g environment)
    (held : s.HoldsOutput environment step content) : s.findsOutput environment step = true := by
  cases s with
  | memory objects =>
      obtain ⟨found, there⟩ := read_outputObject_memory held
      simp [Storage.findsOutput, found, there, Except.isOk, Except.toBool]
  | disk root t =>
      obtain ⟨short, stored, -⟩ := held
      have opens := h.open source
      have plain := plainSegment_outputPath environment step
      have fits := isFileName_outputPath environment step
      have segments := pathSegments_output root environment step
      cases environment with
      | standalone | mock =>
          have found := FileTree.find?_of_opens plain fits short segments opens stored
          simp only [Storage.findsOutput, read, FileTree.content?, found]
          rfl
      | distributed =>
          obtain ⟨entries, folder⟩ := FileTree.exists_folder_of_at? stored
          have opens' := FileTree.Opens.concat opens plain fits
            ⟨entries, by rw [List.reverse_cons]; exact folder⟩
          rw [outputFolder, folderPlace] at folder stored
          have part := FileTree.find?_of_opens plainSegment_partName (by decide) short
            (pathSegments_part root .distributed step) opens'
            (by rw [wayOf_append, wayOf_plain plain, List.reverse_cons]; exact stored)
          rw [outputObject, partPath_zero, String.append_assoc, joinPath_outputPath,
            String.utf8ByteSize_append] at short
          have parts := FileTree.find?_of_opens plain fits (by omega) segments opens folder
          simp only [Storage.findsOutput, contains, FileTree.contains, read, FileTree.content?,
            part, parts]
          rfl

end Serves

/-- Two storages of one shape, or with room for the outputs of a graph. -/
def Comparable (g : StageGraph) (environment : Environment) (s s' : Storage) : Prop :=
  s.SameShape s' ∨ s.HasRoom g environment ∧ s'.HasRoom g environment

/-- Two storages in which outputs are stored and found, and relations read, in both or in
neither. -/
def Alike (g : StageGraph) (environment : Environment) (s s' : Storage) : Prop :=
  s.SameShape s' ∧ (∀ relation ∈ g.relations, s.ShareRelation s' relation) ∨
    s.Serves g environment ∧ s'.Serves g environment

/-- Comparable storages behave alike if the relations can be read in both. -/
theorem Comparable.alike (h : s.Comparable g environment s')
    (reads : ∀ relation ∈ g.relations, (∃ content, s.read (relationPath relation) = .ok content) ∧
      ∃ content, s'.read (relationPath relation) = .ok content) : s.Alike g environment s' := by
  obtain shape | ⟨room, room'⟩ := h
  · refine .inl ⟨shape, fun relation known => ?_⟩
    obtain ⟨⟨content, found⟩, content', found'⟩ := reads relation known
    exact ⟨fun _ => ⟨content', holdsRelation_of_read found'⟩,
      fun _ => ⟨content, holdsRelation_of_read found⟩⟩
  · exact .inr ⟨⟨room, fun relation known => (reads relation known).1⟩,
      room', fun relation known => (reads relation known).2⟩

theorem Alike.writeOutput (source : g.relations ≠ []) (h : s.Alike g environment s')
    (member : stage ∈ g.stages) (stores : Engine.storesOutput stage = true)
    (records records' : List Record) :
    (s.writeOutput environment stage.step records).1 =
        (s'.writeOutput environment stage.step records').1 ∧
      (s.writeOutput environment stage.step records).2.Alike g environment
        (s'.writeOutput environment stage.step records').2 := by
  obtain ⟨shape, shared⟩ | ⟨serves, serves'⟩ := h
  · obtain ⟨outcome, after⟩ := shape.writeOutput environment stage.step records records'
    exact ⟨outcome, .inl ⟨after, fun relation known =>
      (shared relation known).writeOutput shape environment stage.step records records'⟩⟩
  · obtain ⟨wrote, after⟩ := serves.writeOutput source member stores records
    obtain ⟨wrote', after'⟩ := serves'.writeOutput source member stores records'
    exact ⟨wrote.trans wrote'.symm, .inr ⟨after, after'⟩⟩

theorem Alike.findsOutput (source : g.relations ≠ []) (h : s.Alike g environment s')
    {content content' : ByteArray} (held : s.HoldsOutput environment step content)
    (held' : s'.HoldsOutput environment step content') :
    s.findsOutput environment step = s'.findsOutput environment step := by
  obtain ⟨shape, -⟩ | ⟨serves, serves'⟩ := h
  · exact shape.findsOutput held held'
  · rw [serves.findsOutput source held, serves'.findsOutput source held']

theorem Alike.isOk_read (h : s.Alike g environment s') (known : relation ∈ g.relations) :
    (s.read (relationPath relation)).isOk = (s'.read (relationPath relation)).isOk := by
  obtain ⟨shape, shared⟩ | ⟨serves, serves'⟩ := h
  · exact shape.isOk_read (shared relation known)
  · obtain ⟨content, found⟩ := serves.reads relation known
    obtain ⟨content', found'⟩ := serves'.reads relation known
    rw [found, found']
    rfl

end Storage

end StagedAlgebra
