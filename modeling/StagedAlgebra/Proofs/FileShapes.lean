import StagedAlgebra.Proofs.StorageFrames

/-!
# The shape of a file tree

What becomes of a file tree depends on its shape, which is the tree with all files emptied. Paths
lead to the same places in trees of one shape, and operations succeed on both or on neither and
leave trees of one shape again.

## Implementation notes

Every operation commutes with taking the shape. That two trees of one shape are treated alike
follows by rewriting with both equations, without following two runs of an operation side by side.
-/

namespace StagedAlgebra

namespace FileTree

variable {t u : FileTree}

mutual

/-- A tree with all files emptied. -/
def shape : FileTree → FileTree
  | .file _ => .file .empty
  | .folder entries => .folder (shapeOf entries)

/-- The entries of a folder with all files emptied. -/
def shapeOf : List (String × FileTree) → List (String × FileTree)
  | [] => []
  | (name, t) :: rest => (name, t.shape) :: shapeOf rest

end

@[simp] theorem isFolder_shape (t : FileTree) : t.shape.isFolder = t.isFolder := by
  cases t <;> simp [shape, isFolder]

theorem entryNamed?_shapeOf (name : String) (entries : List (String × FileTree)) :
    entryNamed? name (shapeOf entries) = (entryNamed? name entries).map shape := by
  induction entries with
  | nil => simp [shapeOf, entryNamed?]
  | cons e rest ih =>
      simp only [shapeOf, entryNamed?, ih]
      split <;> rfl

theorem at?_shape (t : FileTree) (names : List String) :
    t.shape.at? names = (t.at? names).map shape := by
  induction names generalizing t with
  | nil => simp [at?]
  | cons name rest ih =>
      cases t with
      | file content => simp [shape, at?]
      | folder entries =>
          simp only [shape, at?, entryNamed?_shapeOf]
          cases entryNamed? name entries with
          | none => rfl
          | some child => exact ih child

theorem walk_shape (t : FileTree) (way names : List String) :
    t.shape.walk way names = t.walk way names := by
  induction names generalizing way with
  | nil => rfl
  | cons name rest ih =>
      simp only [walk, ih, at?_shape]
      cases t.at? (name :: way).reverse with
      | none => rfl
      | some found => cases found <;> simp [shape]

@[simp] theorem place?_shape (t : FileTree) (path : String) :
    t.shape.place? path = t.place? path := by
  rw [place?, place?, walk_shape]

theorem find?_shape (t : FileTree) (path : String) :
    t.shape.find? path = (t.find? path).map shape := by
  unfold find?
  rw [place?_shape]
  split
  · rfl
  · exact at?_shape _ _
  · rw [at?_shape]
    cases t.at? _ with
    | none => rfl
    | some found =>
        cases found with
        | folder entries => simp [shape]
        | file content =>
            simp only [shape, Option.map_some]
            split <;> simp [shape]

@[simp] theorem contains_shape (t : FileTree) (path : String) :
    t.shape.contains path = t.contains path := by
  rw [contains, contains, find?_shape, Option.isSome_map]

@[simp] theorem hasFolder_shape (t : FileTree) (path : String) :
    t.shape.hasFolder path = t.hasFolder path := by
  rw [hasFolder, hasFolder, find?_shape]
  cases t.find? path with
  | none => rfl
  | some found => exact isFolder_shape found

theorem shapeOf_putEntry (name : String) (x : FileTree) (entries : List (String × FileTree)) :
    shapeOf (putEntry name x entries) = putEntry name x.shape (shapeOf entries) := by
  induction entries with
  | nil => simp [putEntry, shapeOf]
  | cons e rest ih =>
      simp only [putEntry, shapeOf]
      split <;> simp [shapeOf, ih]

theorem shapeOf_filter (keep : String → Bool) (entries : List (String × FileTree)) :
    shapeOf (entries.filter fun e => keep e.1) = (shapeOf entries).filter fun e => keep e.1 := by
  induction entries with
  | nil => simp [shapeOf]
  | cons e rest ih =>
      simp only [shapeOf, List.filter_cons]
      split <;> simp [shapeOf, ih]

/-- A change of a folder that commutes with taking the shape does so in a tree. -/
theorem shape_updateFolder {change change' : List (String × FileTree) → List (String × FileTree)}
    (commutes : ∀ entries, shapeOf (change entries) = change' (shapeOf entries)) (t : FileTree)
    (names : List String) :
    (t.updateFolder change names).shape = t.shape.updateFolder change' names := by
  induction names generalizing t with
  | nil => cases t <;> simp [updateFolder, shape, commutes]
  | cons name rest ih =>
      cases t with
      | file content => simp [updateFolder, shape]
      | folder entries =>
          simp only [updateFolder, shape, entryNamed?_shapeOf]
          cases entryNamed? name entries with
          | none => simp [shape]
          | some child => simp [shape, shapeOf_putEntry, ih]

theorem makeFolder?_shape (t : FileTree) (path : String) :
    t.shape.makeFolder? path = (t.makeFolder? path).map shape := by
  unfold makeFolder?
  rw [place?_shape]
  split
  · rename_i way name slash _
    rw [at?_shape]
    cases t.at? (name :: way).reverse with
    | some found => rfl
    | none =>
        have same := shape_updateFolder (shapeOf_putEntry name (.folder [])) t way.reverse
        simp only [Option.map_none, Option.map_some, same, shape, shapeOf]
  · rfl

theorem makeFolders_shape (t : FileTree) (done names : List String) :
    t.shape.makeFolders done names =
      ((t.makeFolders done names).1.shape, (t.makeFolders done names).2) := by
  induction names generalizing t done with
  | nil => rfl
  | cons name rest ih =>
      simp only [makeFolders, hasFolder_shape, makeFolder?_shape]
      split
      · exact ih t _
      · cases t.makeFolder? ("/".intercalate (done ++ [name])) with
        | none => rfl
        | some made => exact ih made _

theorem writeFile?_shape (t : FileTree) (path : String) (content : ByteArray) :
    t.shape.writeFile? path .empty = (t.writeFile? path content).map shape := by
  unfold writeFile?
  rw [place?_shape]
  split
  · rename_i way name _
    have same := shape_updateFolder (shapeOf_putEntry name (.file content)) t way.reverse
    rw [at?_shape]
    cases t.at? (name :: way).reverse with
    | none => simp [same, shape]
    | some found => cases found <;> simp [same, shape]
  · rfl

theorem remove_shape (t : FileTree) (path : String) :
    t.shape.remove path = ((t.remove path).1.shape, (t.remove path).2) := by
  unfold remove
  rw [contains_shape, place?_shape]
  split
  · split
    · rename_i way name slash _
      simp only [withoutEntry, shape_updateFolder (shapeOf_filter (· != name)) t way.reverse]
    · rename_i way _
      have same : (t.updateFolder (fun _ => []) way.reverse).shape =
          t.shape.updateFolder (fun _ => []) way.reverse :=
        shape_updateFolder (fun _ => by simp only [shapeOf]) t way.reverse
      rw [same]
    · rfl
  · rfl

end FileTree

namespace Storage

variable {s s' : Storage} {root path : String} {t : FileTree}

/-- A storage with all files emptied; in memory objects have no place, so none is left. -/
def shape : Storage → Storage
  | .memory _ => .memory .empty
  | .disk root t => .disk root t.shape

/-- Storages in memory, or below one folder in file trees of one shape. -/
def SameShape (s s' : Storage) : Prop :=
  s.shape = s'.shape

theorem contains_disk_shape : (disk root t.shape).contains path = (disk root t).contains path :=
  FileTree.contains_shape t (joinPath root path)

theorem isOk_read_disk_shape :
    ((disk root t.shape).read path).isOk = ((disk root t).read path).isOk := by
  simp only [read, FileTree.content?, FileTree.find?_shape]
  cases t.find? (joinPath root path) with
  | none => rfl
  | some x => cases x <;> simp [FileTree.shape, Except.isOk, Except.toBool]

theorem write_disk_shape (root path : String) (t : FileTree) (content : ByteArray) :
    (disk root t.shape).write path .empty =
      (((disk root t).write path content).1, ((disk root t).write path content).2.shape) := by
  simp only [write, FileTree.makeFolders_shape]
  split
  · rfl
  · cases made : t.makeFolders [] (pathNames (joinPath root path)).dropLast with
    | mk t₁ whole =>
        cases whole with
        | false => rfl
        | true =>
            simp only [FileTree.writeFile?_shape t₁ _ content]
            cases t₁.writeFile? (joinPath root path) content <;> rfl

theorem delete_disk_shape (root path : String) (t : FileTree) : (disk root t.shape).delete path =
    (((disk root t).delete path).1, ((disk root t).delete path).2.shape) := by
  simp only [delete, FileTree.remove_shape]
  cases t.remove (joinPath root path) with
  | mk t₁ whole => cases whole <;> rfl

/-- Storages of one shape are both in memory or both below one folder. -/
theorem SameShape.cases (h : s.SameShape s') :
    (∃ objects objects', s = memory objects ∧ s' = memory objects') ∨
      ∃ root t t', s = disk root t ∧ s' = disk root t' ∧ t.shape = t'.shape := by
  cases s with
  | memory objects =>
      cases s' with
      | memory objects' => exact .inl ⟨objects, objects', rfl, rfl⟩
      | disk root t => cases h
  | disk root t =>
      cases s' with
      | memory objects => cases h
      | disk root' t' =>
          obtain ⟨rfl, same⟩ := disk.inj h
          exact .inr ⟨root, t, t', rfl, rfl, same⟩

/-- Writing succeeds on storages of one shape alike, whatever is written. -/
theorem SameShape.write (h : s.SameShape s') (path : String) (content content' : ByteArray) :
    (s.write path content).1 = (s'.write path content').1 ∧
      (s.write path content).2.SameShape (s'.write path content').2 := by
  obtain ⟨objects, objects', rfl, rfl⟩ | ⟨root, t, t', rfl, rfl, same⟩ := h.cases
  · exact ⟨rfl, rfl⟩
  · have both := write_disk_shape root path t content
    rw [same, write_disk_shape root path t' content', Prod.mk.injEq] at both
    exact ⟨both.1.symm, both.2.symm⟩

theorem SameShape.delete (h : s.SameShape s') (path : String) :
    (s.delete path).1 = (s'.delete path).1 ∧ (s.delete path).2.SameShape (s'.delete path).2 := by
  obtain ⟨objects, objects', rfl, rfl⟩ | ⟨root, t, t', rfl, rfl, same⟩ := h.cases
  · exact ⟨rfl, rfl⟩
  · have both := delete_disk_shape root path t
    rw [same, delete_disk_shape, Prod.mk.injEq] at both
    exact ⟨both.1.symm, both.2.symm⟩

/-- Storing an output succeeds on storages of one shape alike, whatever is stored. -/
theorem SameShape.writeOutput (h : s.SameShape s') (environment : Environment) (step : StepId)
    (records records' : List Record) :
    (s.writeOutput environment step records).1 = (s'.writeOutput environment step records').1 ∧
      (s.writeOutput environment step records).2.SameShape
        (s'.writeOutput environment step records').2 := by
  cases environment with
  | standalone | mock =>
      obtain ⟨outcome, shape⟩ := h.write (outputPath _ step) (encodeRecords records)
        (encodeRecords records')
      exact ⟨congrArg (Except.map _) outcome, shape⟩
  | distributed =>
      obtain ⟨outcome, shape⟩ := h.delete (outputPath .distributed step)
      simp only [Storage.writeOutput]
      cases left : s.delete (outputPath .distributed step) with
      | mk first s₁ =>
          cases right : s'.delete (outputPath .distributed step) with
          | mk second s₂ =>
              rw [left, right] at outcome shape
              dsimp only at outcome
              subst outcome
              cases first with
              | error fault => exact ⟨rfl, shape⟩
              | ok done =>
                  obtain ⟨outcome, shape⟩ := SameShape.write shape
                    (partPath (outputPath .distributed step) 0) (encodeRecords records)
                    (encodeRecords records')
                  exact ⟨congrArg (Except.map _) outcome, shape⟩

/-- An output is found in storages of one shape alike. -/
theorem SameShape.findsOutput (h : s.SameShape s') {environment : Environment} {step : StepId}
    {content content' : ByteArray} (held : s.HoldsOutput environment step content)
    (held' : s'.HoldsOutput environment step content') :
    s.findsOutput environment step = s'.findsOutput environment step := by
  obtain ⟨objects, objects', rfl, rfl⟩ | ⟨root, t, t', rfl, rfl, same⟩ := h.cases
  · simp only [Storage.findsOutput, read_outputObject_memory held, read_outputObject_memory held',
      Except.isOk, Except.toBool]
  · simp only [Storage.findsOutput]
    rw [← contains_disk_shape, ← isOk_read_disk_shape, same, contains_disk_shape,
      isOk_read_disk_shape]

/-- The file of a relation is in both storages or in neither. -/
def ShareRelation (s s' : Storage) (relation : String) : Prop :=
  (∃ content, s.HoldsRelation relation content) ↔ ∃ content, s'.HoldsRelation relation content

theorem exists_holdsRelation_disk {relation : String} :
    (∃ content, (disk root t).HoldsRelation relation content) ↔
      ((t.shape.at? (placeOf root (relationPath relation))).map fun x => x.isFolder) =
        some false := by
  rw [FileTree.at?_shape]
  simp only [HoldsRelation]
  cases t.at? (placeOf root (relationPath relation)) with
  | none => simp
  | some x => cases x <;> simp [FileTree.shape, FileTree.isFolder]

theorem exists_writeOutput_disk (root : String) (t : FileTree) (environment : Environment)
    (step : StepId) (records : List Record) :
    ∃ u, ((disk root t).writeOutput environment step records).2 = disk root u := by
  obtain ⟨-, -, u, after, -⟩ := exists_of_writeOutput_disk (Prod.eta _).symm
  exact ⟨u, after⟩

/-- Storing an output leaves the file of a relation in both storages or in neither. -/
theorem ShareRelation.writeOutput {relation : String} (shared : s.ShareRelation s' relation)
    (h : s.SameShape s') (environment : Environment) (step : StepId)
    (records records' : List Record) :
    (s.writeOutput environment step records).2.ShareRelation
      (s'.writeOutput environment step records').2 relation := by
  have after := (h.writeOutput environment step records records').2
  obtain ⟨objects, objects', rfl, rfl⟩ | ⟨root, t, t', rfl, rfl, same⟩ := h.cases
  · rw [writeOutput_memory, writeOutput_memory]
    simp only [ShareRelation, HoldsRelation, Table.get?_withOutput,
      if_neg (relationPath_ne_outputObject relation environment step)] at shared ⊢
    split
    · simp
    · exact shared
  · obtain ⟨u, left⟩ := exists_writeOutput_disk root t environment step records
    obtain ⟨u', right⟩ := exists_writeOutput_disk root t' environment step records'
    rw [left, right] at after ⊢
    obtain ⟨-, shapes⟩ := disk.inj after
    rw [ShareRelation, exists_holdsRelation_disk, exists_holdsRelation_disk, shapes]

/-- The file of a relation can be read in storages of one shape alike. -/
theorem SameShape.isOk_read {relation : String} (h : s.SameShape s')
    (shared : s.ShareRelation s' relation) :
    (s.read (relationPath relation)).isOk = (s'.read (relationPath relation)).isOk := by
  obtain ⟨objects, objects', rfl, rfl⟩ | ⟨root, t, t', rfl, rfl, same⟩ := h.cases
  · simp only [ShareRelation, HoldsRelation, ← Option.isSome_iff_exists] at shared
    simp only [read]
    cases left : objects.get? (relationPath relation) <;>
      cases right : objects'.get? (relationPath relation) <;>
        simp_all [Except.isOk, Except.toBool]
  · rw [← isOk_read_disk_shape, same, isOk_read_disk_shape]

/-- A relation whose file can be read in two storages alike is read as the contents of the files
say, or in neither. -/
theorem readRelation_of_isOk_read {relation : String}
    (alike : (s.read (relationPath relation)).isOk = (s'.read (relationPath relation)).isOk) :
    (∃ content content', s.HoldsRelation relation content ∧ s'.HoldsRelation relation content' ∧
      s.readRelation relation = decodeRecords (relationPath relation) content ∧
      s'.readRelation relation = decodeRecords (relationPath relation) content') ∨
    (∃ fault, s.readRelation relation = .error fault) ∧
      ∃ fault, s'.readRelation relation = .error fault := by
  cases left : s.read (relationPath relation) with
  | error fault =>
      cases right : s'.read (relationPath relation) with
      | ok content => simp [left, right, Except.isOk, Except.toBool] at alike
      | error fault' =>
          exact .inr ⟨⟨fault, by simp only [Storage.readRelation, left]⟩,
            fault', by simp only [Storage.readRelation, right]⟩
  | ok content =>
      cases right : s'.read (relationPath relation) with
      | error fault' => simp [left, right, Except.isOk, Except.toBool] at alike
      | ok content' =>
          exact .inl ⟨content, content', holdsRelation_of_read left, holdsRelation_of_read right,
            by simp only [Storage.readRelation, left], by simp only [Storage.readRelation, right]⟩

end Storage

end StagedAlgebra
