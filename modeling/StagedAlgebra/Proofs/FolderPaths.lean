import Mathlib.Algebra.GroupWithZero.Nat
import Mathlib.Algebra.Order.BigOperators.Group.List
import Mathlib.Algebra.Order.Group.Nat
import StagedAlgebra.Proofs.FileTrees

/-!
# Paths through folders that are there

If the folders on the way of a path are there, making them changes nothing, a file can be written
at the end of the way, and what is there is found. A path that leads to a file still does so after
a change that keeps all the places that its way passes through.

## Implementation notes

What a change keeps is said place by place (`KeepsAt`). It is not enough that the place where a
path ends is kept: the way of a path may pass through folders and come back out of them.

The folders on a way are made without the names that lead nowhere (`leadingNames`), each by a path
of its own, which is never longer than the path of the file (`utf8ByteSize_intercalate_le`).
-/

namespace StagedAlgebra

theorem slash_not_mem_of_mem_pathSegments {path name : String} (h : name ∈ pathSegments path) :
    '/' ∉ name.toList := by
  have none (chars : List Char) : ∀ part ∈ chars.splitOn '/', '/' ∉ part := by
    induction chars with
    | nil => simp
    | cons c rest ih =>
        rw [List.splitOn_cons_eq_if_modifyHead]
        split
        · simpa using ih
        · rename_i other
          cases parts : rest.splitOn '/' with
          | nil => simp
          | cons first more =>
              rw [parts, List.forall_mem_cons] at ih
              rw [List.modifyHead_cons, List.forall_mem_cons, List.mem_cons, not_or]
              exact ⟨⟨fun same => other (by simp [← same]), ih.1⟩, ih.2⟩
  obtain ⟨part, member, rfl⟩ := List.mem_map.mp h
  simpa using none _ part member

theorem intercalate_pathSegments (path : String) : "/".intercalate (pathSegments path) = path := by
  apply String.toList_inj.mp
  rw [String.toList_intercalate, pathSegments, List.map_map]
  simp [Function.comp_def]

theorem utf8ByteSize_intercalate {names : List String} (h : names ≠ []) :
    ("/".intercalate names).utf8ByteSize + 1 =
      (names.map fun name => name.utf8ByteSize + 1).sum := by
  induction names with
  | nil => exact absurd rfl h
  | cons name rest ih =>
      by_cases last : rest = []
      · simp [last]
      · rw [String.intercalate_cons_of_ne_nil last, String.utf8ByteSize_append,
          String.utf8ByteSize_append, List.map_cons, List.sum_cons, ← ih last]
        have slash : "/".utf8ByteSize = 1 := by decide
        omega

/-- A path of some of the names of a path is not longer. -/
theorem utf8ByteSize_intercalate_le {path : String} {names : List String}
    (h : names.Sublist (pathSegments path)) :
    ("/".intercalate names).utf8ByteSize ≤ path.utf8ByteSize := by
  by_cases none : names = []
  · simp [none]
  · have some : pathSegments path ≠ [] := fun empty => none (List.sublist_nil.mp (empty ▸ h))
    have size := utf8ByteSize_intercalate none
    have whole := utf8ByteSize_intercalate some
    rw [intercalate_pathSegments] at whole
    have fewer := (h.map fun name => name.utf8ByteSize + 1).sum_le_sum (by simp)
    omega

theorem pathSegments_intercalate {path : String} {names : List String}
    (h : names.Sublist (pathSegments path)) (some : names ≠ []) :
    pathSegments ("/".intercalate names) = names := by
  rw [pathSegments, String.toList_intercalate]
  have none : ∀ chars ∈ names.map String.toList, '/' ∉ chars := by
    intro chars member
    obtain ⟨name, inside, rfl⟩ := List.mem_map.mp member
    exact slash_not_mem_of_mem_pathSegments (h.subset inside)
  rw [show "/".toList = ['/'] from rfl, List.splitOn_intercalate '/' none (by simpa using some),
    List.map_map]
  simp [Function.comp_def]

/-- Names without those that lead nowhere. -/
def leadingNames (names : List String) : List String :=
  names.filter fun name => name != "" && name != "."

theorem mem_leadingNames {name : String} {names : List String} :
    name ∈ leadingNames names ↔ name ∈ names ∧ name ≠ "" ∧ name ≠ "." := by
  simp [leadingNames]

theorem leadingNames_sublist (names : List String) : (leadingNames names).Sublist names :=
  List.filter_sublist

/-- The folders on the way of a path to a plain name. -/
theorem dropLast_pathNames {path name : String} {names : List String} (plain : PlainSegment name)
    (segments : pathSegments path = names ++ [name]) :
    (pathNames path).dropLast = leadingNames names := by
  have kept : [name].filter (fun s => s != "" && s != ".") = [name] := by
    simp [plain.1, plain.2.1]
  rw [pathNames, segments, List.filter_append, kept, List.dropLast_concat, leadingNames]

theorem wayOf_leadingNames (way names : List String) :
    wayOf way (leadingNames names) = wayOf way names := by
  induction names generalizing way with
  | nil => rfl
  | cons name rest ih =>
      by_cases skipped : name = "" ∨ name = "."
      · rw [wayOf, if_pos skipped, ← ih]
        rcases skipped with rfl | rfl <;> rfl
      · rw [not_or] at skipped
        have kept : leadingNames (name :: rest) = name :: leadingNames rest := by
          simp [leadingNames, skipped]
        simp only [kept, wayOf, ih]

namespace FileTree

variable {t t' : FileTree} {way names rest : List String} {name path : String}

theorem walk_leadingNames (t : FileTree) (way names : List String) (more : Names rest) :
    t.walk way (leadingNames names ++ rest) = t.walk way (names ++ rest) := by
  induction names generalizing way with
  | nil => rfl
  | cons name others ih =>
      by_cases skipped : name = "" ∨ name = "."
      · rw [List.cons_append, walk, if_pos skipped, ← ih]
        rcases skipped with rfl | rfl <;> rfl
      · rw [not_or] at skipped
        have kept : leadingNames (name :: others) = name :: leadingNames others := by
          simp [leadingNames, skipped]
        -- A name is left to be followed, so this one must be a folder.
        have left (front : List String) : (front ++ rest).all (· == "") = false := by
          obtain ⟨other, member, filled⟩ := more
          rw [List.all_eq_false]
          exact ⟨other, by simp [member], by simpa using filled⟩
        simp only [kept, List.cons_append, walk, left, ih, Bool.false_eq_true, if_false]

/-- Names that can be followed lead to a folder in which any name can be sought. -/
theorem Opens.exists_walk (h : t.Opens way names) :
    ∃ place, t.walk way (names ++ ["x"]) = some place := by
  rw [h.2 _ ⟨"x", by simp, by decide⟩]
  exact ⟨_, walk_of_isFileName (by decide) (by decide) (by simp)⟩

theorem Opens.front (h : t.Opens way (names ++ rest)) (start : t.FolderAt way) :
    t.Opens way names := by
  obtain ⟨place, walked⟩ := h.exists_walk
  rw [List.append_assoc] at walked
  exact opens_of_walk start ⟨"x", by simp, by decide⟩ walked

theorem Opens.leadingNames (h : t.Opens way names) : t.Opens way (leadingNames names) := by
  refine ⟨by rw [wayOf_leadingNames]; exact h.1, fun rest more => ?_⟩
  rw [walk_leadingNames t way names more, wayOf_leadingNames]
  exact h.2 rest more

theorem Opens.isFileName (h : t.Opens way (names ++ name :: rest)) (plain : PlainSegment name) :
    StagedAlgebra.isFileName name = true := by
  obtain ⟨place, walked⟩ := h.exists_walk
  rw [List.append_assoc, List.cons_append] at walked
  exact isFileName_of_walk plain walked

theorem Opens.concat (h : t.Opens way names) (plain : PlainSegment name)
    (fits : StagedAlgebra.isFileName name = true) (folder : t.FolderAt (name :: wayOf way names)) :
    t.Opens way (names ++ [name]) := by
  rw [Opens, wayOf_append, wayOf_plain plain]
  refine ⟨folder, fun rest more => ?_⟩
  obtain ⟨other, member, filled⟩ := more
  have left : rest.all (· == "") = false := by
    rw [List.all_eq_false]
    exact ⟨other, member, by simpa using filled⟩
  obtain ⟨entries, there⟩ := folder
  rw [List.append_assoc, h.2 _ ⟨name, by simp, plain.1⟩, List.singleton_append]
  rw [List.reverse_cons] at there
  simp [walk, plain.1, plain.2.1, plain.2.2, fits, left, there]

theorem hasFolder_of_opens (start : t.FolderAt []) (short : path.utf8ByteSize ≤ 4095)
    (segments : pathSegments path = names ++ [name]) (named : name ≠ "" ∧ name ≠ ".")
    (h : t.Opens [] (names ++ [name])) : t.hasFolder path = true := by
  have walk : t.walk [] (names ++ [name]) = t.walk (wayOf [] names) [name] :=
    (h.front start).2 _ ⟨name, by simp, named.1⟩
  obtain ⟨entries, folder⟩ := h.1
  rw [wayOf_append] at folder
  rw [hasFolder, find?, place?, if_pos short, segments, walk]
  by_cases up : name = ".."
  · subst up
    have place : t.walk (wayOf [] names) [".."] = some (.folder (wayOf [] names).tail) := rfl
    have above : wayOf (wayOf [] names) [".."] = (wayOf [] names).tail := rfl
    rw [above] at folder
    simp [place, folder, isFolder]
  · have plain : PlainSegment name := ⟨named.1, named.2, up⟩
    rw [wayOf_plain plain, List.reverse_cons] at folder
    rw [walk_of_isFileName plain (h.isFileName plain) (by simp)]
    simp [folder, isFolder]

/-- Folders that are there need not be made. -/
theorem makeFolders_of_opens (start : t.FolderAt []) (short : path.utf8ByteSize ≤ 4095)
    (segments : pathSegments path = names ++ rest) (h : t.Opens [] names) :
    t.makeFolders [] (leadingNames names) = (t, true) := by
  have inside : (leadingNames names).Sublist (pathSegments path) := by
    rw [segments]
    exact (leadingNames_sublist names).trans (List.sublist_append_left ..)
  have all (todo : List String) : ∀ done, done ++ todo = leadingNames names →
      t.makeFolders done todo = (t, true) := by
    induction todo with
    | nil => exact fun _ _ => rfl
    | cons name others ih =>
        intro done equal
        rw [List.append_cons] at equal
        have opens := h.leadingNames
        rw [← equal] at opens inside
        have front := (List.sublist_append_left _ _).trans inside
        have named : name ≠ "" ∧ name ≠ "." := by
          have member : name ∈ leadingNames names := by simp [← equal]
          exact (mem_leadingNames.mp member).2
        have there := hasFolder_of_opens start ((utf8ByteSize_intercalate_le front).trans short)
          (pathSegments_intercalate front (by simp)) named (opens.front start)
        simp only [makeFolders, there, if_true]
        exact ih _ equal
  exact all _ [] rfl

theorem makeFolders_append (t : FileTree) (done front back : List String) :
    t.makeFolders done (front ++ back) =
      match t.makeFolders done front with
      | (t', true) => t'.makeFolders (done ++ front) back
      | (t', false) => (t', false) := by
  induction front generalizing t done with
  | nil => simp [makeFolders]
  | cons name rest ih =>
      simp only [List.cons_append, makeFolders]
      split
      · rw [ih, List.append_assoc, List.singleton_append]
      · split
        · rw [ih, List.append_assoc, List.singleton_append]
        · rfl

/-- A folder in one that is there is made alone. -/
theorem makeFolders_of_missing (start : t.FolderAt []) (short : path.utf8ByteSize ≤ 4095)
    (segments : pathSegments path = names ++ name :: rest) (h : t.Opens [] names)
    (plain : PlainSegment name) (fits : isFileName name = true)
    (missing : t.at? ((wayOf [] names).reverse ++ [name]) = none) :
    t.makeFolders [] (leadingNames (names ++ [name])) =
      (t.updateFolder (putEntry name (.folder [])) (wayOf [] names).reverse, true) := by
  have kept : leadingNames (names ++ [name]) = leadingNames names ++ [name] := by
    simp [leadingNames, plain.1, plain.2.1]
  have inside : (leadingNames names ++ [name]).Sublist (pathSegments path) := by
    rw [segments, List.append_cons names]
    exact ((leadingNames_sublist names).append_right [name]).trans (List.sublist_append_left ..)
  have place : t.place? ("/".intercalate (leadingNames names ++ [name])) =
      some (.entry (wayOf [] names) name false) := by
    rw [place?, if_pos ((utf8ByteSize_intercalate_le inside).trans short),
      pathSegments_intercalate inside (by simp),
      walk_leadingNames t [] names ⟨name, by simp, plain.1⟩, h.2 _ ⟨name, by simp, plain.1⟩]
    exact walk_of_isFileName plain fits (by simp)
  have gone : t.hasFolder ("/".intercalate (leadingNames names ++ [name])) = false := by
    simp [hasFolder, find?, place, missing]
  rw [kept, makeFolders_append, makeFolders_of_opens start short segments h]
  simp [makeFolders, gone, makeFolder?, place, missing]

/-- The names of folders that can be entered hold no zero byte. -/
theorem Opens.clean (h : t.Opens [] names) :
    (StagedAlgebra.leadingNames names).any (·.toList.contains '\x00') = false := by
  rw [List.any_eq_false]
  intro name member
  obtain ⟨inside, filled, other⟩ := mem_leadingNames.mp member
  by_cases up : name = ".."
  · rw [up]
    decide
  · obtain ⟨front, back, rfl⟩ := List.append_of_mem inside
    have fits := h.isFileName ⟨filled, other, up⟩
    simp only [StagedAlgebra.isFileName, Bool.and_eq_true, Bool.not_eq_true'] at fits
    simpa using fits.2

theorem writeFile?_of_opens {content : ByteArray} (plain : PlainSegment name)
    (fits : StagedAlgebra.isFileName name = true) (short : path.utf8ByteSize ≤ 4095)
    (segments : pathSegments path = names ++ [name]) (h : t.Opens [] names)
    (free : ¬ t.FolderAt (name :: wayOf [] names)) :
    t.writeFile? path content =
      some (t.updateFolder (putEntry name (.file content)) (wayOf [] names).reverse) := by
  rw [writeFile?, place?, if_pos short, segments, h.2 _ ⟨name, by simp, plain.1⟩,
    walk_of_isFileName plain fits (by simp)]
  simp only [List.isEmpty_nil, Bool.not_true]
  split
  · rename_i entries found
    exact absurd ⟨entries, found⟩ free
  · rfl

theorem find?_of_opens {x : FileTree} (plain : PlainSegment name)
    (fits : StagedAlgebra.isFileName name = true) (short : path.utf8ByteSize ≤ 4095)
    (segments : pathSegments path = names ++ [name]) (h : t.Opens [] names)
    (there : t.at? ((wayOf [] names).reverse ++ [name]) = some x) : t.find? path = some x := by
  rw [find?, place?, if_pos short, segments, h.2 _ ⟨name, by simp, plain.1⟩,
    walk_of_isFileName plain fits (by simp)]
  simp only [List.reverse_cons, there]
  cases x <;> rfl

/-- What is at a place stays there: a folder as a folder, a file with its content. -/
structure KeepsAt (t t' : FileTree) (way : List String) : Prop where
  /-- A folder stays a folder. -/
  folder : t.FolderAt way → t'.FolderAt way
  /-- A file keeps its content. -/
  content : ∀ c, t.at? way.reverse = some (.file c) → t'.at? way.reverse = some (.file c)

theorem KeepsAt.trans {t'' : FileTree} (h : t.KeepsAt t' way) (h' : t'.KeepsAt t'' way) :
    t.KeepsAt t'' way :=
  ⟨fun folder => h'.folder (h.folder folder), fun _ held => h'.content _ (h.content _ held)⟩

theorem Grows.keepsAt (h : t.Grows t') (way : List String) : t.KeepsAt t' way :=
  ⟨h.folder, fun content => (h.content _ content).mpr⟩

/-- A change of one entry of a folder keeps what is neither at that entry nor below it. -/
theorem keepsAt_updateFolder {change : List (String × FileTree) → List (String × FileTree)}
    (others : ∀ other, other ≠ name → ∀ entries,
      entryNamed? other (change entries) = entryNamed? other entries)
    {front : List String} (apart : ¬ (front ++ [name]) <+: way.reverse) :
    t.KeepsAt (t.updateFolder change front) way := by
  obtain ⟨back, rfl⟩ | ⟨first, more, place⟩ | same :=
    at?_updateFolder_cases t change front way.reverse
  · exact ⟨folderAt_updateFolder change, fun _ =>
      (at?_updateFolder_file t way.reverse back).mpr⟩
  · have different : first ≠ name := by
      rintro rfl
      exact apart ⟨more, by rw [place, List.append_assoc, List.singleton_append]⟩
    have same : (t.updateFolder change front).at? way.reverse = t.at? way.reverse := by
      rw [place]
      exact at?_updateFolder_entry (others first different)
    exact ⟨by rw [FolderAt, FolderAt, same]; exact id, fun content => by rw [same]; exact id⟩
  · exact ⟨by rw [FolderAt, FolderAt, same]; exact id, fun content => by rw [same]; exact id⟩

/-- A way through places that are kept can still be followed. -/
theorem walk_of_keepsAt {place : Place} (h : t.walk way names = some place)
    (kept : ∀ seen, seen <+: names → t.KeepsAt t' (wayOf way seen)) :
    t'.walk way names = some place := by
  induction names generalizing way with
  | nil => exact h
  | cons name rest ih =>
      have later {way' : List String} (first : ∀ seen, wayOf way (name :: seen) = wayOf way' seen)
          (seen : List String) (front : seen <+: rest) : t.KeepsAt t' (wayOf way' seen) := by
        rw [← first]
        exact kept _ ((List.prefix_cons_inj name).mpr front)
      rw [walk] at h ⊢
      split at h
      · rename_i skipped
        rw [if_pos skipped]
        exact ih h (later fun seen => by rw [wayOf, if_pos skipped])
      rename_i named
      rw [if_neg named]
      split at h
      · rename_i up
        rw [if_pos up]
        exact ih h (later fun seen => by rw [wayOf, if_neg named, if_pos up])
      rename_i down
      have on (seen : List String) : wayOf way (name :: seen) = wayOf (name :: way) seen := by
        rw [wayOf, if_neg named, if_neg down]
      rw [if_neg down]
      split at h
      · cases h
      rename_i fits
      rw [if_neg fits]
      split at h
      · rename_i last
        rw [if_pos last]
        exact h
      rename_i more
      rw [if_neg more]
      split at h
      · rename_i entries found
        obtain ⟨others, still⟩ := (later on [] List.nil_prefix).folder ⟨entries, found⟩
        rw [wayOf] at still
        simp only [still]
        exact ih h (later on)
      · cases h

/-- A file at the end of a way through places that are kept is still found. -/
theorem content?_of_keepsAt {content : ByteArray} (h : t.content? path = some content)
    (kept : ∀ seen, seen <+: pathSegments path → t.KeepsAt t' (wayOf [] seen)) :
    t'.content? path = some content := by
  have found : t.find? path = some (.file content) := by
    unfold content? at h
    split at h
    · rename_i there
      rw [there, Option.some.inj h]
    · cases h
  have before := at?_of_find? found
  have after := (kept _ (List.prefix_refl _)).content _ before
  suffices t'.find? path = some (.file content) by simp only [content?, this]
  unfold find? at found ⊢
  cases place : t.place? path with
  | none => simp [place] at found
  | some target =>
      rw [place] at found
      unfold place? at place ⊢
      split at place
      · rename_i short
        rw [← way_of_walk place] at before after
        rw [if_pos short, walk_of_keepsAt place kept]
        cases target with
        | folder way => exact after
        | entry way name slash =>
            simp only [Place.way] at before after
            simpa only [before, after] using found
      · cases place

theorem Opens.keepsAt (h : t.Opens [] names) (start : t'.FolderAt [])
    (kept : ∀ way, t.KeepsAt t' way) : t'.Opens [] names := by
  obtain ⟨place, walked⟩ := h.exists_walk
  exact opens_of_walk start ⟨"x", by simp, by decide⟩ (walk_of_keepsAt walked fun _ _ => kept _)

end FileTree

end StagedAlgebra
