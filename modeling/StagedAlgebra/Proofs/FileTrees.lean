import StagedAlgebra.Storage.FileTree

/-!
# Paths through file trees

A path that leads anywhere leads to a place that depends on its names alone (`wayOf`); the tree
only decides whether it can be followed. So what an operation on a tree does is said by the places
where it does it: making a folder adds no file anywhere, and writing or removing an entry changes
nothing at the places that are not at or below it.

## Implementation notes

`at?_append` and the two lemmas on `updateFolder` and `at?`, for places above the changed folder
and for places apart from it, are all that opens the recursion over a tree. `filesAt` is the list
of the files at and below a place; it is what reading the parts of an output depends on.
-/

namespace StagedAlgebra

/-- A name that stands for an entry of a folder. -/
def PlainSegment (name : String) : Prop :=
  name ≠ "" ∧ name ≠ "." ∧ name ≠ ".."

instance (name : String) : Decidable (PlainSegment name) :=
  inferInstanceAs (Decidable (_ ∧ _ ∧ _))

theorem pathSegments_of_not_mem {path : String} (h : '/' ∉ path.toList) :
    pathSegments path = [path] := by
  rw [pathSegments, List.splitOn_eq_singleton h, List.map_singleton, String.ofList_toList]

theorem pathSegments_append (path rest : String) :
    pathSegments (path ++ "/" ++ rest) = pathSegments path ++ pathSegments rest := by
  have chars : (path ++ "/" ++ rest).toList = path.toList ++ '/' :: rest.toList := by
    simp
  rw [pathSegments, chars, List.splitOn_append_cons_self, List.map_append, pathSegments,
    pathSegments]

/-- Where names lead from a way on, if they can be followed; the last name of a way is first. -/
def wayOf (way : List String) : List String → List String
  | [] => way
  | name :: rest =>
    if name = "" ∨ name = "." then wayOf way rest
    else if name = ".." then wayOf way.tail rest
    else wayOf (name :: way) rest

theorem wayOf_append (way names rest : List String) :
    wayOf way (names ++ rest) = wayOf (wayOf way names) rest := by
  induction names generalizing way with
  | nil => rfl
  | cons name more ih =>
      simp only [List.cons_append, wayOf]
      split
      · exact ih way
      · split
        · exact ih way.tail
        · exact ih (name :: way)

theorem wayOf_blank {way names : List String} (h : ∀ name ∈ names, name = "") :
    wayOf way names = way := by
  induction names with
  | nil => rfl
  | cons name rest ih =>
      rw [wayOf, if_pos (.inl (h name (by simp)))]
      exact ih fun other ho => h other (by simp [ho])

theorem wayOf_plain {way : List String} {name : String} (h : PlainSegment name) :
    wayOf way [name] = name :: way := by
  simp [wayOf, h.1, h.2.1, h.2.2]

/-- The names on the way to the place that a walk comes to, the last one first. -/
def Place.way : Place → List String
  | .folder way => way
  | .entry way name _ => name :: way

namespace FileTree

variable {t t' : FileTree} {way names rest : List String} {name : String}

theorem way_of_walk {place : Place} (h : t.walk way names = some place) :
    place.way = wayOf way names := by
  induction names generalizing way with
  | nil =>
      cases h
      rfl
  | cons name rest ih =>
      simp only [walk] at h
      simp only [wayOf]
      split at h
      · rename_i skipped
        rw [if_pos skipped]
        exact ih h
      · rename_i named
        rw [if_neg named]
        split at h
        · rename_i up
          rw [if_pos up]
          exact ih h
        · rename_i down
          rw [if_neg down]
          split at h
          · cases h
          split at h
          · rename_i blank
            cases h
            rw [wayOf_blank (by simpa using blank)]
            rfl
          · split at h
            · exact ih h
            · cases h

/-- Whether a name is left to be followed. -/
def Names (rest : List String) : Prop :=
  ∃ name ∈ rest, name ≠ ""

theorem at?_append (t : FileTree) (front back : List String) :
    t.at? (front ++ back) = (t.at? front).bind (·.at? back) := by
  induction front generalizing t with
  | nil => rfl
  | cons name rest ih =>
      cases t with
      | file content => rfl
      | folder entries =>
          rw [List.cons_append, at?, at?]
          cases entryNamed? name entries with
          | none => rfl
          | some child => exact ih child

/-- What is below a place is in a folder. -/
theorem exists_folder_of_at? {front : List String} {x : FileTree}
    (h : t.at? (front ++ [name]) = some x) : ∃ entries, t.at? front = some (.folder entries) := by
  rw [at?_append] at h
  cases above : t.at? front with
  | none => simp [above] at h
  | some child =>
      cases child with
      | file content => simp [above, at?] at h
      | folder entries => exact ⟨entries, rfl⟩

/-- A way leads to a folder. -/
def FolderAt (t : FileTree) (way : List String) : Prop :=
  ∃ entries, t.at? way.reverse = some (.folder entries)

theorem FolderAt.tail (h : t.FolderAt way) : t.FolderAt way.tail := by
  cases way with
  | nil => exact h
  | cons name way =>
      obtain ⟨entries, found⟩ := h
      rw [List.reverse_cons] at found
      exact exists_folder_of_at? found

theorem FolderAt.root (h : t.FolderAt way) : t.FolderAt [] := by
  induction way with
  | nil => exact h
  | cons name rest ih => exact ih h.tail

theorem folderAt_nil_of_at? {x : FileTree} (h : t.at? (name :: rest) = some x) :
    t.FolderAt [] := by
  cases t with
  | file content => cases h
  | folder entries => exact ⟨entries, rfl⟩

/-- Names can be followed in a tree: they lead to a folder, and a walk on from there does not
see them. -/
def Opens (t : FileTree) (way names : List String) : Prop :=
  t.FolderAt (wayOf way names) ∧
    ∀ rest, Names rest → t.walk way (names ++ rest) = t.walk (wayOf way names) rest

/-- A walk that gets anywhere has followed the names before. -/
theorem opens_of_walk {place : Place} (start : t.FolderAt way) (more : Names rest)
    (h : t.walk way (names ++ rest) = some place) : t.Opens way names := by
  induction names generalizing way with
  | nil => exact ⟨start, fun _ _ => rfl⟩
  | cons name others ih =>
      have left {rest' : List String} (more' : Names rest') :
          (others ++ rest').all (· == "") = false := by
        obtain ⟨other, ho, filled⟩ := more'
        rw [List.all_eq_false]
        exact ⟨other, by simp [ho], by simpa using filled⟩
      rw [List.cons_append, walk] at h
      unfold Opens
      simp only [List.cons_append, walk, wayOf]
      split at h
      · rename_i skipped
        simp only [if_pos skipped]
        exact ih start h
      · rename_i named
        simp only [if_neg named]
        split at h
        · rename_i up
          simp only [if_pos up]
          exact ih start.tail h
        · rename_i down
          simp only [if_neg down]
          split at h
          · cases h
          · rename_i fits
            rw [left more] at h
            simp only [Bool.false_eq_true, if_false] at h
            simp only [if_neg fits]
            split at h
            · rename_i entries found
              obtain ⟨folder, same⟩ := ih ⟨entries, found⟩ h
              refine ⟨folder, fun rest' more' => ?_⟩
              rw [left more']
              simp only [Bool.false_eq_true, if_false]
              exact same rest' more'
            · cases h

/-- A walk to a plain name ends at that name. -/
theorem walk_plain (plain : PlainSegment name) (blank : ∀ other ∈ rest, other = "") {place : Place}
    (h : t.walk way (names ++ name :: rest) = some place) :
    place = .entry (wayOf way names) name (!rest.isEmpty) := by
  induction names generalizing way with
  | nil =>
      have all : rest.all (· == "") = true := by
        simpa using blank
      simp only [List.nil_append, walk, plain.1, plain.2.1, plain.2.2, or_self, if_false, all,
        if_true] at h
      split at h
      · cases h
      · cases h
        rfl
  | cons other others ih =>
      have left : (others ++ name :: rest).all (· == "") = false := by
        rw [List.all_eq_false]
        exact ⟨name, by simp, by simpa using plain.1⟩
      simp only [List.cons_append, walk] at h
      simp only [wayOf]
      split at h
      · rename_i skipped
        rw [if_pos skipped]
        exact ih h
      · rename_i named
        rw [if_neg named]
        split at h
        · rename_i up
          rw [if_pos up]
          exact ih h
        · rename_i down
          rw [if_neg down]
          split at h
          · cases h
          rw [left] at h
          simp only [Bool.false_eq_true, if_false] at h
          split at h
          · exact ih h
          · cases h

/-- Files may have the names that are walked through. -/
theorem isFileName_of_walk (plain : PlainSegment name) {place : Place}
    (h : t.walk way (names ++ name :: rest) = some place) : isFileName name = true := by
  induction names generalizing way with
  | nil =>
      simp only [List.nil_append, walk, plain.1, plain.2.1, plain.2.2, or_self, if_false] at h
      split at h
      · cases h
      · rename_i fits
        simpa using fits
  | cons other others ih =>
      have left : (others ++ name :: rest).all (· == "") = false := by
        rw [List.all_eq_false]
        exact ⟨name, by simp, by simpa using plain.1⟩
      simp only [List.cons_append, walk] at h
      split at h
      · exact ih h
      split at h
      · exact ih h
      split at h
      · cases h
      rw [left] at h
      simp only [Bool.false_eq_true, if_false] at h
      split at h
      · exact ih h
      · cases h

theorem walk_of_isFileName (plain : PlainSegment name) (fits : isFileName name = true)
    (blank : ∀ other ∈ rest, other = "") :
    t.walk way (name :: rest) = some (.entry way name (!rest.isEmpty)) := by
  have all : rest.all (· == "") = true := by
    simpa using blank
  simp [walk, plain.1, plain.2.1, plain.2.2, fits, all]

/-- What is found at the end of a path is at its place. -/
theorem at?_of_find? {path : String} {x : FileTree} (h : t.find? path = some x) :
    t.at? (wayOf [] (pathSegments path)).reverse = some x := by
  unfold find? place? at h
  split at h
  · cases h
  · rename_i way found
    split at found
    · rw [← way_of_walk found]
      exact h
    · cases found
  · rename_i way name slash found
    split at found
    · rw [← way_of_walk found]
      split at h
      · rename_i content there
        split at h
        · cases h
        · cases h
          exact there
      · exact h
    · cases found

section Updates

variable {change : List (String × FileTree) → List (String × FileTree)}

theorem entryNamed?_putEntry (name other : String) (x : FileTree)
    (entries : List (String × FileTree)) :
    entryNamed? other (putEntry name x entries) =
      if other = name then some x else entryNamed? other entries := by
  induction entries with
  | nil =>
      by_cases same : other = name
      · simp [putEntry, entryNamed?, same]
      · simp [putEntry, entryNamed?, same, Ne.symm same]
  | cons entry rest ih =>
      obtain ⟨n, child⟩ := entry
      by_cases first : n = name
      · by_cases same : other = name
        · simp [putEntry, entryNamed?, first, same]
        · simp [putEntry, entryNamed?, first, same, Ne.symm same]
      · simp only [putEntry, if_neg first, entryNamed?, ih]
        by_cases same : other = name
        · simp [same, first]
        · simp [same]

theorem entryNamed?_filter {name other : String} (apart : other ≠ name)
    (entries : List (String × FileTree)) :
    entryNamed? other (entries.filter (·.1 != name)) = entryNamed? other entries := by
  induction entries with
  | nil => rfl
  | cons entry rest ih =>
      by_cases same : entry.1 = name
      · simp [entryNamed?, same, Ne.symm apart, ih]
      · simp [entryNamed?, same, ih]

/-- A folder above the changed one is changed below. -/
theorem at?_updateFolder_above (t : FileTree) (front back : List String) :
    (t.updateFolder change (front ++ back)).at? front =
      (t.at? front).map (·.updateFolder change back) := by
  induction front generalizing t with
  | nil => rfl
  | cons name rest ih =>
      cases t with
      | file content => rfl
      | folder entries =>
          rw [List.cons_append, updateFolder]
          cases found : entryNamed? name entries with
          | none => simp [at?, found]
          | some child =>
              simp only [at?, entryNamed?_putEntry, if_true, found]
              exact ih child

theorem at?_updateFolder_self (t : FileTree) (front : List String) :
    (t.updateFolder change front).at? front = (t.at? front).map (·.updateFolder change []) := by
  have whole : (t.updateFolder change (front ++ [])).at? front = _ :=
    at?_updateFolder_above t front []
  rwa [List.append_nil] at whole

/-- What is neither above nor below the changed folder stays as it is. -/
theorem at?_updateFolder_apart {front other : List String} (above : ¬ front <+: other)
    (below : ¬ other <+: front) : (t.updateFolder change front).at? other = t.at? other := by
  induction front generalizing t other with
  | nil => exact absurd (List.nil_prefix) above
  | cons name rest ih =>
      cases other with
      | nil => exact absurd (List.nil_prefix) below
      | cons first more =>
          cases t with
          | file content => rfl
          | folder entries =>
              rw [updateFolder]
              cases found : entryNamed? name entries with
              | none => rfl
              | some child =>
                  simp only [at?, entryNamed?_putEntry]
                  by_cases same : first = name
                  · subst same
                    rw [List.cons_prefix_cons] at above below
                    simp only [if_true, found]
                    exact ih (fun h => above ⟨rfl, h⟩) fun h => below ⟨rfl, h⟩
                  · simp [same]

/-- An entry that a change of its folder leaves alone stays as it is. -/
theorem at?_updateFolder_entry {front : List String} {first : String} {more : List String}
    (kept : ∀ entries, entryNamed? first (change entries) = entryNamed? first entries) :
    (t.updateFolder change front).at? (front ++ first :: more) =
      t.at? (front ++ first :: more) := by
  rw [at?_append, at?_append, at?_updateFolder_self]
  cases t.at? front with
  | none => rfl
  | some child =>
      cases child with
      | file content => rfl
      | folder entries => simp [updateFolder, at?, kept]

/-- A place is above the changed folder, below it, or stays as it is. -/
theorem at?_updateFolder_cases (t : FileTree)
    (change : List (String × FileTree) → List (String × FileTree)) (front place : List String) :
    (∃ back, front = place ++ back) ∨ (∃ first more, place = front ++ first :: more) ∨
      (t.updateFolder change front).at? place = t.at? place := by
  by_cases above : place <+: front
  · obtain ⟨back, rfl⟩ := above
    exact .inl ⟨back, rfl⟩
  · by_cases below : front <+: place
    · obtain ⟨back, rfl⟩ := below
      cases back with
      | nil => simp at above
      | cons first more => exact .inr (.inl ⟨first, more, rfl⟩)
    · exact .inr (.inr (at?_updateFolder_apart below above))

theorem exists_updateFolder (change : List (String × FileTree) → List (String × FileTree))
    (front : List String) (entries : List (String × FileTree)) :
    ∃ others, (FileTree.folder entries).updateFolder change front = .folder others := by
  cases front with
  | nil => exact ⟨_, rfl⟩
  | cons name rest =>
      rw [updateFolder]
      split
      · exact ⟨_, rfl⟩
      · exact ⟨_, rfl⟩

/-- A folder above the changed one stays a folder. -/
theorem folderAt_updateFolder (change : List (String × FileTree) → List (String × FileTree))
    {back : List String} (h : t.FolderAt way) :
    (t.updateFolder change (way.reverse ++ back)).FolderAt way := by
  obtain ⟨entries, folder⟩ := h
  obtain ⟨others, still⟩ := exists_updateFolder change back entries
  exact ⟨others, by rw [at?_updateFolder_above, folder, Option.map_some, still]⟩

/-- A change below a place does not make or unmake a file there. -/
theorem at?_updateFolder_file (t : FileTree) (place back : List String) {content : ByteArray} :
    (t.updateFolder change (place ++ back)).at? place = some (.file content) ↔
      t.at? place = some (.file content) := by
  rw [at?_updateFolder_above]
  cases t.at? place with
  | none => rfl
  | some child =>
      cases child with
      | file other => cases back <;> rfl
      | folder entries =>
          obtain ⟨others, still⟩ := exists_updateFolder change back entries
          simp [still]

end Updates

/-- The names that lead on from a place to the files at and below it. -/
def filesAt (t : FileTree) (place : List String) : List (List String) :=
  ((t.at? place).map files).getD []

theorem filesOf_putEntry_of_none {entries : List (String × FileTree)} (x : FileTree)
    (h : entryNamed? name entries = none) :
    filesOf (putEntry name x entries) = filesOf entries ++ x.files.map (name :: ·) := by
  induction entries with
  | nil => simp [putEntry, filesOf]
  | cons entry rest ih =>
      obtain ⟨n, child⟩ := entry
      by_cases first : n = name
      · simp [entryNamed?, first] at h
      · rw [entryNamed?, if_neg first] at h
        simp [putEntry, first, filesOf, ih h]

theorem filesOf_putEntry_of_some {entries : List (String × FileTree)} {x child : FileTree}
    (h : entryNamed? name entries = some child) (same : x.files = child.files) :
    filesOf (putEntry name x entries) = filesOf entries := by
  induction entries with
  | nil => cases h
  | cons entry rest ih =>
      obtain ⟨n, other⟩ := entry
      by_cases first : n = name
      · rw [entryNamed?, if_pos first, Option.some.injEq] at h
        simp [putEntry, first, filesOf, same, h]
      · rw [entryNamed?, if_neg first] at h
        simp [putEntry, first, filesOf, ih h]

theorem files_of_entryNamed? {entries : List (String × FileTree)} {child : FileTree}
    (h : entryNamed? name entries = some child) (none_there : filesOf entries = []) :
    child.files = [] := by
  induction entries with
  | nil => cases h
  | cons entry rest ih =>
      obtain ⟨n, other⟩ := entry
      rw [filesOf, List.append_eq_nil_iff, List.map_eq_nil_iff] at none_there
      by_cases first : n = name
      · rw [entryNamed?, if_pos first, Option.some.injEq] at h
        rw [← h]
        exact none_there.1
      · rw [entryNamed?, if_neg first] at h
        exact ih h none_there.2

/-- A new folder holds no file. -/
theorem files_updateFolder_putEntry {front : List String} (h : t.at? (front ++ [name]) = none) :
    (t.updateFolder (putEntry name (.folder [])) front).files = t.files := by
  induction front generalizing t with
  | nil =>
      cases t with
      | file content => rfl
      | folder entries =>
          have free : entryNamed? name entries = none := by
            cases found : entryNamed? name entries with
            | none => rfl
            | some child => simp [at?, found] at h
          simp [updateFolder, files, filesOf_putEntry_of_none _ free, filesOf]
  | cons first more ih =>
      cases t with
      | file content => rfl
      | folder entries =>
          rw [updateFolder]
          cases found : entryNamed? first entries with
          | none => rfl
          | some child =>
              simp only [List.cons_append, at?, found] at h
              simp only [files]
              exact filesOf_putEntry_of_some found (ih h)

/-- A tree has the files of another and at most more folders. -/
structure Grows (t t' : FileTree) : Prop where
  /-- The files at and below each place are the same. -/
  files : ∀ place, t'.filesAt place = t.filesAt place
  /-- The files have the same contents. -/
  content : ∀ place content,
    t'.at? place = some (.file content) ↔ t.at? place = some (.file content)
  /-- A folder stays a folder. -/
  folder : ∀ {way}, t.FolderAt way → t'.FolderAt way

theorem Grows.refl (t : FileTree) : t.Grows t :=
  ⟨fun _ => rfl, fun _ _ => Iff.rfl, fun folder => folder⟩

theorem Grows.trans {t'' : FileTree} (h : t.Grows t') (h' : t'.Grows t'') : t.Grows t'' :=
  ⟨fun place => (h'.files place).trans (h.files place),
    fun place content => (h'.content place content).trans (h.content place content),
    fun folder => h'.folder (h.folder folder)⟩

theorem at?_of_none {front more : List String} (h : t.at? (front ++ [name]) = none) :
    t.at? (front ++ name :: more) = none := by
  rw [List.append_cons, at?_append, h]
  rfl

/-- What stands below a new folder. -/
theorem at?_updateFolder_new (t : FileTree) (name : String) (front more : List String) :
    (t.updateFolder (putEntry name (.folder [])) front).at? (front ++ name :: more) = none ∨
      (t.updateFolder (putEntry name (.folder [])) front).at? (front ++ name :: more) =
        some (.folder []) := by
  rw [at?_append, at?_updateFolder_self]
  cases t.at? front with
  | none => exact .inl rfl
  | some child =>
      cases child with
      | file content => exact .inl rfl
      | folder entries =>
          simp only [Option.map_some, Option.bind_some, updateFolder, at?, entryNamed?_putEntry,
            if_true]
          cases more with
          | nil => exact .inr rfl
          | cons first others => exact .inl rfl

theorem grows_updateFolder {front : List String} (h : t.at? (front ++ [name]) = none) :
    t.Grows (t.updateFolder (putEntry name (.folder [])) front) := by
  -- Below the changed folder, only the new one is different, and it holds nothing.
  have below (first : String) (more : List String) :
      (t.updateFolder (putEntry name (.folder [])) front).at? (front ++ first :: more) =
          t.at? (front ++ first :: more) ∨
        t.at? (front ++ first :: more) = none ∧
          (t.updateFolder (putEntry name (.folder [])) front).at? (front ++ first :: more) =
            some (.folder []) := by
    by_cases same : first = name
    · subst same
      rw [at?_of_none h]
      obtain gone | new := at?_updateFolder_new t first front more
      · exact .inl gone
      · exact .inr ⟨rfl, new⟩
    · left
      apply at?_updateFolder_entry
      intro entries
      rw [entryNamed?_putEntry, if_neg same]
  refine ⟨fun place => ?_, fun place content => ?_, fun {way} folder => ?_⟩
  · obtain ⟨back, rfl⟩ | ⟨first, more, rfl⟩ | same :=
      at?_updateFolder_cases t (putEntry name (.folder [])) front place
    · rw [filesAt, filesAt, at?_updateFolder_above]
      rw [List.append_assoc, at?_append] at h
      cases found : t.at? place with
      | none => rfl
      | some child =>
          rw [found, Option.bind_some] at h
          exact files_updateFolder_putEntry h
    · obtain same | ⟨free, new⟩ := below first more
      · rw [filesAt, filesAt, same]
      · rw [filesAt, filesAt, free, new]
        rfl
    · rw [filesAt, filesAt, same]
  · obtain ⟨back, rfl⟩ | ⟨first, more, rfl⟩ | same :=
      at?_updateFolder_cases t (putEntry name (.folder [])) front place
    · exact at?_updateFolder_file t place back
    · obtain same | ⟨free, new⟩ := below first more
      · rw [same]
      · simp [free, new]
    · rw [same]
  · obtain ⟨back, rfl⟩ | ⟨first, more, place⟩ | same :=
      at?_updateFolder_cases t (putEntry name (.folder [])) front way.reverse
    · exact folderAt_updateFolder _ folder
    · unfold FolderAt at folder ⊢
      rw [place] at folder ⊢
      obtain same | ⟨free, -⟩ := below first more
      · rwa [same]
      · simp [free] at folder
    · rwa [FolderAt, same]

theorem grows_makeFolder {path : String} (h : t.makeFolder? path = some t') : t.Grows t' := by
  unfold makeFolder? at h
  split at h
  · rename_i way name slash found
    split at h
    · rename_i free
      cases h
      rw [List.reverse_cons] at free
      exact grows_updateFolder free
    · cases h
  · cases h

/-- Making folders adds no file. -/
theorem grows_makeFolders (t : FileTree) (done names : List String) :
    t.Grows (t.makeFolders done names).1 := by
  induction names generalizing t done with
  | nil => exact .refl t
  | cons name rest ih =>
      simp only [makeFolders]
      split
      · exact ih t _
      · split
        · rename_i made
          exact (grows_makeFolder made).trans (ih _ _)
        · exact .refl t

theorem entryNamed?_filter_self (entries : List (String × FileTree)) :
    entryNamed? name (entries.filter (·.1 != name)) = none := by
  induction entries with
  | nil => rfl
  | cons entry rest ih =>
      by_cases same : entry.1 = name
      · simp [same, ih]
      · simp [same, entryNamed?, ih]

/-- Nothing is found at or below an entry that is removed. -/
theorem at?_withoutEntry (t : FileTree) (way : List String) (name : String)
    (more : List String) : (t.withoutEntry way name).at? (way.reverse ++ name :: more) = none := by
  rw [withoutEntry, at?_append, at?_updateFolder_self]
  cases t.at? way.reverse with
  | none => rfl
  | some child =>
      cases child with
      | file content => rfl
      | folder entries => simp [updateFolder, at?, entryNamed?_filter_self]

theorem place?_plain {path : String} {names : List String} (plain : PlainSegment name)
    (segments : pathSegments path = names ++ [name]) {place : Place}
    (h : t.place? path = some place) :
    place = .entry (wayOf [] names) name false ∧ path.utf8ByteSize ≤ 4095 ∧
      t.walk [] (names ++ [name]) = some place := by
  unfold place? at h
  split at h
  · rename_i fits
    rw [segments] at h
    exact ⟨walk_plain plain (by simp) h, fits, h⟩
  · cases h

/-- A file is written as an entry of the folder that its path leads through. -/
theorem writeFile?_plain {path : String} {names : List String} {content : ByteArray}
    (plain : PlainSegment name) (segments : pathSegments path = names ++ [name])
    (h : t.writeFile? path content = some t') :
    t' = t.updateFolder (putEntry name (.file content)) (wayOf [] names).reverse ∧
      (∀ entries, t.at? ((wayOf [] names).reverse ++ [name]) ≠ some (.folder entries)) ∧
      path.utf8ByteSize ≤ 4095 ∧ ∃ place, t.walk [] (names ++ [name]) = some place := by
  unfold writeFile? at h
  split at h
  · rename_i way other found
    obtain ⟨same, fits, walked⟩ := place?_plain plain segments found
    cases same
    split at h
    · cases h
    · rename_i no_folder
      cases h
      rw [List.reverse_cons] at no_folder
      exact ⟨rfl, no_folder, fits, _, walked⟩
  · cases h

/-- Removing a path either removes the entry that it leads to, or the path leads nowhere. -/
theorem remove_plain {path : String} {names : List String} (plain : PlainSegment name)
    (segments : pathSegments path = names ++ [name]) :
    t.remove path = (t.withoutEntry (wayOf [] names) name, true) ∨
      t.remove path = (t, true) ∧ t.find? path = none := by
  unfold remove
  split
  · left
    rename_i there
    cases found : t.place? path with
    | none => simp [contains, find?, found] at there
    | some place =>
        obtain ⟨rfl, -⟩ := place?_plain plain segments found
        rfl
  · right
    rename_i missing
    exact ⟨rfl, by simpa [contains] using missing⟩

/-- A file that is found after another one is written was there before. -/
theorem content_of_putEntry {front place : List String} {x : FileTree} {written content : ByteArray}
    (x_eq : x = t.updateFolder (putEntry name (.file written)) front)
    (h : x.at? place = some (.file content)) (other : place ≠ front ++ [name]) :
    t.at? place = some (.file content) := by
  subst x_eq
  obtain ⟨back, rfl⟩ | ⟨first, more, rfl⟩ | same :=
    at?_updateFolder_cases t (putEntry name (.file written)) front place
  · exact (at?_updateFolder_file t place back).mp h
  · by_cases equal : first = name
    · subst equal
      rw [at?_append, at?_updateFolder_self] at h
      cases found : t.at? front with
      | none => simp [found] at h
      | some child =>
          cases child with
          | file other => simp [found, updateFolder, at?] at h
          | folder entries =>
              simp only [found, Option.map_some, Option.bind_some, updateFolder, at?,
                entryNamed?_putEntry, if_true] at h
              cases more with
              | nil => exact absurd rfl other
              | cons second others => cases h
    · rwa [at?_updateFolder_entry] at h
      intro entries
      rw [entryNamed?_putEntry, if_neg equal]
  · rwa [same] at h

/-- A file that is found after an entry is removed was there before. -/
theorem content_of_withoutEntry {way place : List String} {content : ByteArray}
    (h : (t.withoutEntry way name).at? place = some (.file content)) :
    t.at? place = some (.file content) := by
  obtain ⟨back, equal⟩ | ⟨first, more, rfl⟩ | same :=
    at?_updateFolder_cases t (fun entries => entries.filter (·.1 != name)) way.reverse place
  · rw [withoutEntry, equal] at h
    exact (at?_updateFolder_file t place back).mp h
  · by_cases equal : first = name
    · subst equal
      rw [at?_withoutEntry] at h
      cases h
    · rwa [withoutEntry, at?_updateFolder_entry] at h
      exact entryNamed?_filter equal
  · rwa [withoutEntry, same] at h

theorem at?_putEntry {front : List String} {entries : List (String × FileTree)}
    (folder : t.at? front = some (.folder entries)) (x : FileTree) :
    (t.updateFolder (putEntry name x) front).at? (front ++ [name]) = some x := by
  rw [at?_append, at?_updateFolder_self, folder]
  simp [updateFolder, at?, entryNamed?_putEntry]

/-- A file that is written into a folder without files is the only one there. -/
theorem filesAt_putEntry {front : List String} {entries : List (String × FileTree)}
    (folder : t.at? front = some (.folder entries)) (empty : t.filesAt front = [])
    (no_folder : ∀ others, t.at? (front ++ [name]) ≠ some (.folder others))
    (content : ByteArray) :
    (t.updateFolder (putEntry name (.file content)) front).filesAt front = [[name]] := by
  rw [filesAt, folder] at empty
  have none_there : filesOf entries = [] := empty
  have free : entryNamed? name entries = none := by
    cases found : entryNamed? name entries with
    | none => rfl
    | some child =>
        have no_files := files_of_entryNamed? found none_there
        rw [at?_append, folder] at no_folder
        cases child with
        | file other => simp [files] at no_files
        | folder others => exact absurd (by simp [at?, found]) (no_folder others)
  rw [filesAt, at?_updateFolder_self, folder]
  simp [updateFolder, files, filesOf_putEntry_of_none _ free, none_there]

end FileTree

end StagedAlgebra
