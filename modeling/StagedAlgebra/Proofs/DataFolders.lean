import StagedAlgebra.Proofs.OutputRoom

/-!
# What a storage does in its folder

A storage in a file tree works in one folder of it. Said in the entries of that folder, reading
looks a name up, writing puts an entry and removing leaves one out, wherever in the tree the folder
is, and whether it is there from the beginning or is made by the first write.

## Implementation notes

The way to the folder may go up and down again. It must not lead into the folder itself
(`Outward`), because what lies there may be removed.
-/

namespace StagedAlgebra

/-- The way to a folder never leads into it. -/
def Outward (root : String) : Prop :=
  ∀ seen ∈ (rootNames root).inits, folderPlace root <+: (wayOf [] seen).reverse →
    folderPlace root = (wayOf [] seen).reverse

instance (root : String) : Decidable (Outward root) :=
  inferInstanceAs (Decidable (∀ _ ∈ _, _))

theorem Outward.not_prefix {root name : String} (outward : Outward root) {seen : List String}
    (front : seen <+: rootNames root) :
    ¬ (folderPlace root ++ [name]) <+: (wayOf [] seen).reverse := by
  intro inside
  have equal := outward seen ((List.mem_inits ..).mpr front) ((List.prefix_append ..).trans inside)
  have longer := inside.length_le
  rw [← equal, List.length_append, List.length_singleton] at longer
  omega

/-- A path below a folder is one that files can have: it is not too long, and each of its names is
a name of files. -/
structure Accepts (root path : String) : Prop where
  short : (joinPath root path).utf8ByteSize ≤ 4095
  names : ∀ name ∈ pathSegments path, PlainSegment name ∧ isFileName name = true

instance (root path : String) : Decidable (Accepts root path) :=
  decidable_of_iff ((joinPath root path).utf8ByteSize ≤ 4095 ∧
    ∀ name ∈ pathSegments path, PlainSegment name ∧ isFileName name = true)
    ⟨fun h => ⟨h.1, h.2⟩, fun h => ⟨h.short, h.names⟩⟩

theorem pathSegments_ne_nil (path : String) : pathSegments path ≠ [] := by
  simp [pathSegments]

/-- A path that files can have does not start with a slash. -/
theorem Accepts.pathSegments_joinPath {root path : String} (h : Accepts root path) :
    pathSegments (joinPath root path) = rootNames root ++ pathSegments path := by
  have trimmed : Text.trimStartOf '/' path = path := by
    cases chars : path.toList with
    | nil => simp [Text.trimStartOf, String.toList_eq_nil_iff.mp chars]
    | cons c rest =>
        refine trimStartOf_of_head chars ?_
        rintro rfl
        refine (h.names "" ?_).1.1 rfl
        simp [pathSegments, chars, List.splitOn_cons_eq_if_modifyHead]
  rw [StagedAlgebra.pathSegments_joinPath, trimmed]

namespace FileTree

variable {t : FileTree} {name path : String} {names rest : List String}

/-- The content of the file that names lead to. -/
def fileAt? (t : FileTree) (place : List String) : Option ByteArray :=
  match t.at? place with
  | some (.file content) => some content
  | _ => none

theorem at?_cons (name : String) (rest : List String) (entries : List (String × FileTree)) :
    (folder entries).at? (name :: rest) = (entryNamed? name entries).bind (·.at? rest) := by
  rw [at?]
  cases entryNamed? name entries <;> rfl

/-- An empty folder holds nothing. -/
theorem at?_nil (path : String) : (folder []).at? (pathSegments path) = none := by
  cases segments : pathSegments path with
  | nil => exact absurd segments (pathSegments_ne_nil path)
  | cons first rest => rfl

theorem entryNamed?_putEntry_of_ne (name : String) (x : FileTree) :
    ∀ other, other ≠ name → ∀ entries,
      entryNamed? other (putEntry name x entries) = entryNamed? other entries := by
  intro other different entries
  rw [entryNamed?_putEntry, if_neg different]

theorem entryNamed?_eq_none_iff {entries : List (String × FileTree)} :
    entryNamed? name entries = none ↔ ∀ e ∈ entries, e.1 ≠ name := by
  induction entries with
  | nil => simp [entryNamed?]
  | cons e rest ih =>
      by_cases same : e.1 = name
      · simp [entryNamed?, same]
      · simp [entryNamed?, same, ih]

theorem putEntry_putEntry (name : String) (x y : FileTree) (entries : List (String × FileTree)) :
    putEntry name x (putEntry name y entries) = putEntry name x entries := by
  induction entries with
  | nil => simp [putEntry]
  | cons e rest ih =>
      by_cases same : e.1 = name
      · simp [putEntry, same]
      · simp [putEntry, same, ih]

/-- Changes a folder among some entries. -/
def changeEntry (name : String) (change : List (String × FileTree) → List (String × FileTree))
    (entries : List (String × FileTree)) : List (String × FileTree) :=
  match entryNamed? name entries with
  | some child => putEntry name (child.updateFolder change []) entries
  | none => entries

/-- A change of a folder is a change of an entry of the one above it. -/
theorem updateFolder_concat (change : List (String × FileTree) → List (String × FileTree))
    (t : FileTree) (front : List String) (name : String) :
    t.updateFolder change (front ++ [name]) = t.updateFolder (changeEntry name change) front := by
  induction front generalizing t with
  | nil =>
      cases t with
      | file content => rfl
      | folder entries =>
          simp only [List.nil_append, updateFolder, changeEntry]
          cases entryNamed? name entries <;> rfl
  | cons first rest ih =>
      cases t with
      | file content => rfl
      | folder entries => simp only [List.cons_append, updateFolder, ih]

theorem entryNamed?_changeEntry (name : String)
    (change : List (String × FileTree) → List (String × FileTree)) :
    ∀ other, other ≠ name → ∀ entries,
      entryNamed? other (changeEntry name change entries) = entryNamed? other entries := by
  intro other different entries
  unfold changeEntry
  split
  · exact entryNamed?_putEntry_of_ne _ _ other different entries
  · rfl

/-- From a folder that can be entered, names of files find what is there. -/
theorem find?_of_names (opens : t.Opens [] names) (short : path.utf8ByteSize ≤ 4095)
    (segments : pathSegments path = names ++ rest) (some_name : rest ≠ [])
    (valid : ∀ name ∈ rest, PlainSegment name ∧ isFileName name = true) :
    t.find? path = t.at? ((wayOf [] names).reverse ++ rest) := by
  induction rest generalizing names with
  | nil => exact absurd rfl some_name
  | cons name rest ih =>
      obtain ⟨plain, fits⟩ := valid name (by simp)
      have walk := opens.2 (name :: rest) ⟨name, by simp, plain.1⟩
      cases rest with
      | nil =>
          have place : t.place? path = some (.entry (wayOf [] names) name false) := by
            rw [place?, if_pos short, segments, walk]
            exact walk_of_isFileName plain fits (by simp)
          simp only [find?, place, List.reverse_cons]
          cases t.at? ((wayOf [] names).reverse ++ [name]) with
          | none => rfl
          | some x => cases x <;> rfl
      | cons next more =>
          by_cases folder : t.FolderAt (name :: wayOf [] names)
          · have further := ih (opens.concat plain fits folder) (by rw [segments, List.append_cons])
              (by simp) fun other member => valid other (by simp [member])
            rw [further, wayOf_append, wayOf_plain plain, List.reverse_cons, List.append_assoc]
            rfl
          · -- The walk needs a folder here, and so does what lies below.
            have left : (next :: more).all (· == "") = false := by
              have filled := (valid next (by simp)).1.1
              simp [filled]
            have place : t.place? path = none := by
              rw [place?, if_pos short, segments, walk, FileTree.walk]
              simp only [plain.1, plain.2.1, plain.2.2, or_self, fits, left, Bool.not_true,
                Bool.false_eq_true, if_false]
              split
              · next entries found => exact absurd ⟨entries, found⟩ folder
              · rfl
            rw [find?, place, List.append_cons, at?_append]
            rw [FolderAt, List.reverse_cons] at folder
            cases found : t.at? ((wayOf [] names).reverse ++ [name]) with
            | none => rfl
            | some x =>
                cases x with
                | file content => rfl
                | folder entries => exact absurd ⟨entries, found⟩ folder

/-- A way that does not lead through a changed entry can still be followed. -/
theorem Opens.updateFolder {change : List (String × FileTree) → List (String × FileTree)}
    (opens : t.Opens [] names)
    (others : ∀ other, other ≠ name → ∀ entries,
      entryNamed? other (change entries) = entryNamed? other entries)
    {front : List String}
    (apart : ∀ seen, seen <+: names → ¬ (front ++ [name]) <+: (wayOf [] seen).reverse) :
    (t.updateFolder change front).Opens [] names := by
  -- A name beside the changed one is sought at the end of the way.
  obtain ⟨fresh, plain, fits, different⟩ : ∃ fresh, PlainSegment fresh ∧
      StagedAlgebra.isFileName fresh = true ∧ name ≠ fresh := by
    by_cases same : name = "x"
    · exact ⟨"y", by decide, by decide, by rw [same]; decide⟩
    · exact ⟨"x", by decide, by decide, same⟩
  have more : Names [fresh] := ⟨fresh, by simp, plain.1⟩
  have walked : t.walk [] (names ++ [fresh]) = some (.entry (wayOf [] names) fresh false) := by
    rw [opens.2 _ more]
    exact walk_of_isFileName plain fits (by simp)
  have start : (t.updateFolder change front).FolderAt [] :=
    folderAt_updateFolder change opens.1.root
  refine opens_of_walk start more (walk_of_keepsAt walked fun seen before => ?_)
  refine keepsAt_updateFolder others fun inside => ?_
  rcases List.prefix_concat_iff.mp before with rfl | before
  · rw [wayOf_append, wayOf_plain plain, List.reverse_cons, List.prefix_concat_iff] at inside
    rcases inside with same | inside
    · exact different (List.singleton_inj.mp (List.append_inj' same rfl).2)
    · exact apart names (List.prefix_refl _) inside
  · exact apart seen before inside

end FileTree

theorem wayOf_of_plain {names : List String} (h : ∀ name ∈ names, PlainSegment name)
    (way : List String) : wayOf way names = names.reverse ++ way := by
  induction names generalizing way with
  | nil => rfl
  | cons name rest ih =>
      have first : wayOf way (name :: rest) = wayOf (wayOf way [name]) rest :=
        wayOf_append way [name] rest
      rw [first, wayOf_plain (h name (by simp)), ih fun other member => h other (by simp [member])]
      simp

namespace Storage

open FileTree (entryNamed? putEntry)

variable {root path name : String} {t : FileTree} {entries : List (String × FileTree)}
variable {step : StepId} {content : ByteArray}

/-- The object that is kept under a path. -/
def object? (s : Storage) (path : String) : Option ByteArray :=
  match s with
  | .memory objects => objects.get? path
  | .disk root tree => tree.fileAt? (folderPlace root ++ pathSegments path)

/-- The entries of the folder of a storage. A folder that is missing has none if it can be made and
is empty then. -/
inductive HasEntries (root : String) (t : FileTree) : List (String × FileTree) → Prop
  /-- The folder can be entered. -/
  | there {entries : List (String × FileTree)} (opens : (disk root t).Open)
      (folder : t.at? (folderPlace root) = some (.folder entries)) : HasEntries root t entries
  /-- The folder is still to be made. -/
  | missing {made : FileTree} (nothing : t.at? (folderPlace root) = none)
      (makes : t.makeFolders [] (leadingNames (rootNames root)) = (made, true))
      (opens : (disk root made).Open)
      (folder : made.at? (folderPlace root) = some (.folder [])) : HasEntries root t []

namespace HasEntries

/-- What is found below the folder is what its entries hold. -/
theorem find? (h : HasEntries root t entries) (accepts : Accepts root path) :
    t.find? (joinPath root path) = (FileTree.folder entries).at? (pathSegments path) := by
  cases h with
  | there opens folder =>
      rw [FileTree.find?_of_names opens accepts.short accepts.pathSegments_joinPath
        (pathSegments_ne_nil path) accepts.names, ← folderPlace, FileTree.at?_append, folder]
      rfl
  | missing nothing =>
      rw [FileTree.at?_nil]
      by_contra found
      obtain ⟨x, found⟩ := Option.ne_none_iff_exists'.mp found
      have there := FileTree.at?_of_find? found
      rw [accepts.pathSegments_joinPath, wayOf_append,
        wayOf_of_plain fun name member => (accepts.names name member).1, List.reverse_append,
        List.reverse_reverse, ← folderPlace, FileTree.at?_append, nothing] at there
      cases there

theorem read (h : HasEntries root t entries) (accepts : Accepts root path) :
    ((disk root t).read path).toOption =
      (FileTree.folder entries).fileAt? (pathSegments path) := by
  simp only [Storage.read, FileTree.content?, h.find? accepts, FileTree.fileAt?]
  cases (FileTree.folder entries).at? (pathSegments path) with
  | none => rfl
  | some x => cases x <;> rfl

theorem contains (h : HasEntries root t entries) (accepts : Accepts root path) :
    (disk root t).contains path =
      ((FileTree.folder entries).at? (pathSegments path)).isSome := by
  rw [Storage.contains, FileTree.contains, h.find? accepts]

/-- The objects of a storage are the files below its folder. -/
theorem object? (h : HasEntries root t entries) (path : String) :
    (disk root t).object? path = (FileTree.folder entries).fileAt? (pathSegments path) := by
  simp only [Storage.object?, FileTree.fileAt?, FileTree.at?_append]
  cases h with
  | there opens folder => rw [folder, Option.bind_some]
  | missing nothing =>
      rw [nothing, FileTree.at?_nil]
      rfl

/-- Before anything is written, the folder is there. -/
theorem exists_made (h : HasEntries root t entries) (accepts : Accepts root path) :
    ∃ made, t.makeFolders [] (leadingNames (rootNames root)) = (made, true) ∧
      (disk root made).Open ∧ made.at? (folderPlace root) = some (.folder entries) := by
  cases h with
  | there opens folder =>
      exact ⟨t, FileTree.makeFolders_of_opens opens.1.root accepts.short
        accepts.pathSegments_joinPath opens, opens, folder⟩
  | missing nothing makes opens folder => exact ⟨_, makes, opens, folder⟩

/-- A change of one entry of the folder leaves the folder where it is. -/
theorem open_updateFolder {change : List (String × FileTree) → List (String × FileTree)}
    (outward : Outward root) (opens : (disk root t).Open)
    (folder : t.at? (folderPlace root) = some (.folder entries))
    (others : ∀ other, other ≠ name → ∀ entries,
      entryNamed? other (change entries) = entryNamed? other entries) :
    (disk root (t.updateFolder change (folderPlace root))).Open ∧
      (t.updateFolder change (folderPlace root)).at? (folderPlace root) =
        some (.folder (change entries)) := by
  constructor
  · exact FileTree.Opens.updateFolder opens others fun seen front => outward.not_prefix front
  · rw [FileTree.at?_updateFolder_self, folder]
    rfl

/-- A file is put among the entries of the folder. -/
theorem exists_write (outward : Outward root) (h : HasEntries root t entries)
    (accepts : Accepts root name) (single : '/' ∉ name.toList)
    (free : ∀ others, entryNamed? name entries ≠ some (.folder others)) (content : ByteArray) :
    ∃ t', (disk root t).write name content = (.ok (), disk root t') ∧
      HasEntries root t' (putEntry name (.file content) entries) := by
  have alone := pathSegments_of_not_mem single
  obtain ⟨plain, fits⟩ := accepts.names name (by simp [alone])
  have segments := accepts.pathSegments_joinPath
  rw [alone] at segments
  obtain ⟨made, makes, opens, folder⟩ := h.exists_made accepts
  have no_folder : ¬ made.FolderAt (name :: wayOf [] (rootNames root)) := by
    rintro ⟨others, found⟩
    rw [List.reverse_cons, ← folderPlace, FileTree.at?_append, folder, Option.bind_some,
      FileTree.at?_cons] at found
    obtain ⟨x, named, same⟩ := Option.bind_eq_some_iff.mp found
    cases same
    exact free others named
  refine ⟨_, write_disk_of_opens plain segments makes opens fits accepts.short no_folder, ?_⟩
  obtain ⟨opens, folder⟩ :=
    open_updateFolder outward opens folder (FileTree.entryNamed?_putEntry_of_ne name _)
  exact .there opens folder

/-- An entry of the folder is left out. -/
theorem exists_delete (outward : Outward root) (h : HasEntries root t entries)
    (accepts : Accepts root name) (single : '/' ∉ name.toList) :
    ∃ t', (disk root t).delete name = (.ok (), disk root t') ∧
      HasEntries root t' (entries.filter (·.1 != name)) := by
  have alone := pathSegments_of_not_mem single
  have plain := (accepts.names name (by simp [alone])).1
  have segments := accepts.pathSegments_joinPath
  have found := h.find? accepts
  rw [alone] at segments
  rw [alone, FileTree.at?_cons] at found
  cases named : entryNamed? name entries with
  | none =>
      have kept : entries.filter (·.1 != name) = entries := by
        rw [List.filter_eq_self]
        simpa using FileTree.entryNamed?_eq_none_iff.mp named
      rw [named] at found
      refine ⟨t, ?_, kept.symm ▸ h⟩
      simp [delete, FileTree.remove, FileTree.contains, found]
  | some x =>
      cases h with
      | missing => cases named
      | there opens folder =>
          obtain removed | ⟨-, missing⟩ := t.remove_plain plain segments
          · refine ⟨t.withoutEntry (wayOf [] (rootNames root)) name, ?_, ?_⟩
            · simp only [delete, removed]
            · obtain ⟨opens, folder⟩ :=
                open_updateFolder outward opens folder fun _ => FileTree.entryNamed?_filter
              exact .there opens folder
          · rw [found, named] at missing
            cases missing

/-- A folder for parts is put among the entries, with the part that is written. -/
theorem exists_write_part (outward : Outward root) (h : HasEntries root t entries)
    (accepts : Accepts root (outputObject .distributed step))
    (gone : entryNamed? (outputPath .distributed step) entries = none) (content : ByteArray) :
    ∃ t', (disk root t).write (outputObject .distributed step) content =
        (.ok (), disk root t') ∧
      HasEntries root t' (putEntry (outputPath .distributed step)
        (.folder [(partName, .file content)]) entries) := by
  obtain ⟨made, makes, opens, folder⟩ := h.exists_made accepts
  have missing : made.at? (folderPlace root ++ [outputPath .distributed step]) = none := by
    rw [FileTree.at?_append, folder, Option.bind_some, FileTree.at?_cons, gone]
    rfl
  refine ⟨_, write_part makes opens accepts.short missing content, ?_⟩
  obtain ⟨opens, folder⟩ := open_updateFolder outward opens folder
    (FileTree.entryNamed?_putEntry_of_ne (outputPath .distributed step) (.folder []))
  obtain ⟨opens, folder⟩ := open_updateFolder outward opens folder
    (FileTree.entryNamed?_changeEntry (outputPath .distributed step)
      (putEntry partName (.file content)))
  rw [FileTree.updateFolder_concat]
  refine .there opens ?_
  rw [folder, FileTree.changeEntry, FileTree.entryNamed?_putEntry, if_pos rfl]
  simp [FileTree.updateFolder, putEntry, FileTree.putEntry_putEntry]

end HasEntries

end Storage

end StagedAlgebra
