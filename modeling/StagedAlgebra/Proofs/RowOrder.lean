import Mathlib.Data.List.Perm.Basic
import Mathlib.Data.List.Sort
import StagedAlgebra.Manifest
import StagedAlgebra.Proofs.RecordCodec
import StagedAlgebra.Proofs.RelationalMeaning

/-!
# The order of records

What an operator makes of records in another order is what it makes of them, in another order. The
same is true of what is read from a file of them, and their digest does not change at all.

## Implementation notes

Which of several records is kept depends on the order in which they come: a projection keeps the
first of each tuple text, a join the first of each tuple of a side. Records of one label with one
text are equal, so nothing is seen of this as long as the records of a projection flow under one
label. A join sorts its records by label itself.
-/

namespace StagedAlgebra

/-- Work on the members of a list succeeds on them in another order. -/
theorem exists_mapM_of_perm {α ε β : Type} {f : α → Except ε β} {xs xs' : List α} {ys : List β}
    (same : xs.Perm xs') (h : xs.mapM f = .ok ys) :
    ∃ ys', xs'.mapM f = .ok ys' ∧ ys.Perm ys' := by
  obtain ⟨ys', all, permuted⟩ := List.perm_comp_forall₂ same.symm (mapM_eq_ok_iff.mp h)
  exact ⟨ys', mapM_eq_ok_iff.mpr all, permuted.symm⟩

theorem nodup_text_dropRepeated (seen : List String) (records : List Record) :
    ((dropRepeated seen records).map fun r => Tuple.text r.tuple).Nodup ∧
      ∀ r ∈ dropRepeated seen records, Tuple.text r.tuple ∉ seen := by
  induction records generalizing seen with
  | nil => simp [dropRepeated]
  | cons r rest ih =>
      simp only [dropRepeated]
      split
      · exact ih seen
      · rename_i fresh
        obtain ⟨nodup, apart⟩ := ih (Tuple.text r.tuple :: seen)
        have unseen : Tuple.text r.tuple ∉ seen := by simpa using fresh
        refine ⟨?_, fun s hs => ?_⟩
        · rw [List.map_cons, List.nodup_cons]
          refine ⟨fun repeated => ?_, nodup⟩
          obtain ⟨s, hs, equal⟩ := List.mem_map.mp repeated
          exact apart s hs (equal ▸ List.mem_cons_self ..)
        · rcases List.mem_cons.mp hs with rfl | hs
          · exact unseen
          · exact fun listed => apart s hs (List.mem_cons_of_mem _ listed)

/-- Of records of one label in another order, the same are left when repetitions are dropped. -/
theorem dropRepeated_perm {records records' : List Record} (label : String)
    (labels : ∀ r ∈ records, r.label = label) (same : records.Perm records') :
    (dropRepeated [] records).Perm (dropRepeated [] records') := by
  have labels' : ∀ r ∈ records', r.label = label := fun r hr => labels r (same.mem_iff.mpr hr)
  refine (List.perm_ext_iff_of_nodup ?_ ?_).mpr fun r => ?_
  · exact (nodup_text_dropRepeated [] records).1.of_map
  · exact (nodup_text_dropRepeated [] records').1.of_map
  · rw [Plan.mem_dropRepeated_iff labels, Plan.mem_dropRepeated_iff labels', same.mem_iff]

/-- The records that are filed under a key, in order. -/
def filedUnder (entries : List (String × Record)) (key : String) : List Record :=
  (entries.filter (·.1 == key)).map (·.2)

theorem filedUnder_perm {entries entries' : List (String × Record)} (same : entries.Perm entries')
    (key : String) : (filedUnder entries key).Perm (filedUnder entries' key) :=
  (same.filter _).map _

theorem mem_keys_foldl_fileUnder (entries : List (String × Record)) (groups : Table (List Record))
    (key : String) :
    key ∈ (entries.foldl fileUnder groups).keys ↔
      key ∈ groups.keys ∨ key ∈ entries.map (·.1) := by
  induction entries generalizing groups with
  | nil => simp
  | cons e rest ih =>
      rw [List.foldl_cons, ih, fileUnder, Table.mem_keys_insert, List.map_cons, List.mem_cons]
      tauto

theorem keys_group_eq {entries entries' : List (String × Record)} (same : entries.Perm entries') :
    (Operator.group entries).keys = (Operator.group entries').keys := by
  refine Table.keys_eq_iff.mpr fun key => ?_
  rw [Operator.group, Operator.group, mem_keys_foldl_fileUnder, mem_keys_foldl_fileUnder,
    (same.map (·.1)).mem_iff]

theorem entries_group (entries : List (String × Record)) :
    (Operator.group entries).entries =
      (Operator.group entries).keys.map fun key => (key, filedUnder entries key) := by
  refine List.map_injective_iff.mpr (fun _ _ => Option.some.inj) ?_
  rw [Table.entries_eq_map, List.map_map]
  refine List.map_congr_left fun key hkey => ?_
  obtain ⟨values, stored⟩ := Table.mem_keys_iff_exists.mp hkey
  have filed := getD_foldl_fileUnder entries .empty key
  rw [← Operator.group, stored] at filed
  simp only [stored, Option.map_some, Function.comp_apply, filedUnder]
  rw [Option.getD_some] at filed
  rw [filed]
  rfl

namespace KeyJoin

variable {j : KeyJoin} {key : String} {values values' made : List Record}

theorem label_of_sides {both : List Record × List Record} (h : j.sides key values = .ok both) :
    ∀ r ∈ values, r.label = j.leftLabel ∨ r.label = j.rightLabel := by
  induction values generalizing both with
  | nil => simp
  | cons r rest ih =>
      unfold sides at h
      intro s hs
      rcases List.mem_cons.mp hs with rfl | hs
      · by_contra strange
        rw [not_or] at strange
        rw [if_neg strange.1, if_neg strange.2] at h
        cases h
      · split at h
        · obtain ⟨others, more, -⟩ := map_eq_ok_iff.mp h
          exact ih more s hs
        · split at h
          · obtain ⟨others, more, -⟩ := map_eq_ok_iff.mp h
            exact ih more s hs
          · cases h

/-- The pairs of records in another order are the same pairs in another order. -/
theorem exists_pair_of_perm (same : values.Perm values') (h : j.pair key values = .ok made) :
    ∃ made', j.pair key values' = .ok made' ∧ made.Perm made' := by
  obtain ⟨⟨left, right⟩, sides, rfl⟩ := map_eq_ok_iff.mp h
  obtain ⟨⟨left', right'⟩, sides'⟩ : ∃ both, j.sides key values' = .ok both :=
    exists_sides fun r hr => label_of_sides sides r (same.mem_iff.mpr hr)
  refine ⟨_, map_eq_ok_iff.mpr ⟨_, sides', rfl⟩, ?_⟩
  obtain ⟨rfl, rfl⟩ := sides_eq_ok sides
  obtain ⟨rfl, rfl⟩ := sides_eq_ok sides'
  have lefts : ∀ r ∈ values.filter (·.label = j.leftLabel), r.label = j.leftLabel := fun r hr => by
    simpa using (List.mem_filter.mp hr).2
  have rights : ∀ r ∈ values.filter fun r => r.label ≠ j.leftLabel ∧ r.label = j.rightLabel,
      r.label = j.rightLabel := fun r hr => by
    have both := (List.mem_filter.mp hr).2
    rw [decide_eq_true_eq] at both
    exact both.2
  exact (dropRepeated_perm _ lefts (same.filter _)).flatMap fun l _ =>
    (dropRepeated_perm _ rights (same.filter _)).map _

end KeyJoin

namespace Operator

variable {op : Operator} {records records' : List Record}

/-- Reducing the records of a key in another order gives the same in another order, as long as the
records that a projection meets are equal. -/
theorem exists_reduce_of_perm {key : String} {made : List Record} (same : records.Perm records')
    (equal : ∀ attributes, op = .project attributes → ∀ r ∈ records, ∀ s ∈ records, r = s)
    (h : op.reduce key records = .ok made) :
    ∃ made', op.reduce key records' = .ok made' ∧ made.Perm made' := by
  cases op with
  | select c | rename newLabel =>
      cases h
      exact ⟨_, rfl, same⟩
  | project attributes =>
      have whole : records' = records := by
        cases records with
        | nil => exact same.nil_eq.symm
        | cons first rest =>
            have copies := List.eq_replicate_of_mem (a := first) (l := first :: rest)
              fun r hr => equal attributes rfl r hr first (List.mem_cons_self ..)
            rw [copies] at same ⊢
            exact List.perm_replicate.mp same.symm
      rw [whole]
      exact ⟨made, h, .refl _⟩
  | join j => exact KeyJoin.exists_pair_of_perm same h

/-- Reducing the groups of a shuffle in another order. -/
theorem exists_reduced_of_perm {entries entries' : List (String × Record)}
    (same : entries.Perm entries')
    (equal : ∀ attributes, op = .project attributes → ∀ key, ∀ r ∈ filedUnder entries key,
      ∀ s ∈ filedUnder entries key, r = s) {keys : List String} {made : List (List Record)}
    (h : List.Forall₂ (fun key one => op.reduce key (filedUnder entries key) = .ok one) keys made) :
    ∃ made', List.Forall₂ (fun key one => op.reduce key (filedUnder entries' key) = .ok one)
      keys made' ∧ made.flatten.Perm made'.flatten := by
  induction h with
  | nil => exact ⟨[], .nil, .refl _⟩
  | @cons key one keys made first _ ih =>
      obtain ⟨one', reduced, permuted⟩ := exists_reduce_of_perm (filedUnder_perm same key)
        (fun attributes project => equal attributes project key) first
      obtain ⟨made', all, others⟩ := ih
      exact ⟨one' :: made', .cons reduced all, permuted.append others⟩

/-- What a projection files under one key of records of one label is one record. -/
theorem eq_of_mem_filedUnder {attributes : List Attribute}
    {mapped : List (List (String × Record))}
    (all : records.mapM (Operator.project attributes).map = .ok mapped)
    (labels : ∀ r ∈ records, ∀ s ∈ records, r.label = s.label) {key : String} {r s : Record}
    (hr : r ∈ filedUnder mapped.flatten key) (hs : s ∈ filedUnder mapped.flatten key) : r = s := by
  have source {x : Record} (hx : x ∈ filedUnder mapped.flatten key) :
      Tuple.text x.tuple = key ∧ ∃ y ∈ records, x.label = y.label := by
    obtain ⟨⟨filed, _⟩, member, rfl⟩ := List.mem_map.mp hx
    obtain ⟨inside, under⟩ := List.mem_filter.mp member
    obtain ⟨y, hy, entries, map, entry⟩ := (mem_flatten_mapped all).mp inside
    obtain ⟨z, projected, rfl⟩ := map_project_eq_ok_iff.mp map
    obtain ⟨t, -, rfl⟩ := map_eq_ok_iff.mp projected
    simp only [List.mem_singleton, Prod.mk.injEq] at entry
    obtain ⟨rfl, rfl⟩ := entry
    exact ⟨by simpa using under, y, hy, rfl⟩
  obtain ⟨left, y, hy, leftLabel⟩ := source hr
  obtain ⟨right, z, hz, rightLabel⟩ := source hs
  have label : r.label = s.label := leftLabel.trans ((labels y hy z hz).trans rightLabel.symm)
  exact Record.eq_of_text label (left.trans right.symm)

/-- An operator makes the same of records in another order, in another order, as long as the
records of a projection flow under one label. -/
theorem exists_run_of_perm {made : List Record} (same : records.Perm records')
    (labels : ∀ attributes, op = .project attributes → ∀ r ∈ records, ∀ s ∈ records,
      r.label = s.label) (h : op.run records = .ok made) :
    ∃ made', op.run records' = .ok made' ∧ made.Perm made' := by
  obtain ⟨mapped, all, rest⟩ := run_eq_ok_iff.mp h
  obtain ⟨mapped', all', permuted⟩ := exists_mapM_of_perm same all
  by_cases reduces : op.reduces = true
  · rw [if_pos reduces, map_eq_ok_iff] at rest
    obtain ⟨groups, reduced, rfl⟩ := rest
    rw [entries_group, mapM_eq_ok_iff, List.forall₂_map_left_iff] at reduced
    have equal : ∀ attributes, op = .project attributes → ∀ key,
        ∀ r ∈ filedUnder mapped.flatten key, ∀ s ∈ filedUnder mapped.flatten key, r = s := by
      rintro attributes rfl key r hr s hs
      exact eq_of_mem_filedUnder all (labels attributes rfl) hr hs
    obtain ⟨groups', reduced', together⟩ :=
      exists_reduced_of_perm permuted.flatten equal reduced
    refine ⟨groups'.flatten, run_eq_ok_iff.mpr ⟨mapped', all', ?_⟩, together⟩
    rw [if_pos reduces, map_eq_ok_iff]
    refine ⟨groups', ?_, rfl⟩
    rw [entries_group, ← keys_group_eq permuted.flatten, mapM_eq_ok_iff,
      List.forall₂_map_left_iff]
    exact reduced'
  · rw [if_neg reduces] at rest
    refine ⟨_, run_eq_ok_iff.mpr ⟨mapped', all', by rw [if_neg reduces]⟩, ?_⟩
    rw [← rest]
    exact permuted.flatten.map _

end Operator

/-- What is read from the file of records in another order is the same in another order. -/
theorem exists_decodeRecords_of_perm {records records' read : List Record} {path : String}
    (fits : ∀ r ∈ records, FitsLine r.label) (same : records.Perm records')
    (h : decodeRecords path (encodeRecords records) = .ok read) (path' : String) :
    ∃ read', decodeRecords path' (encodeRecords records') = .ok read' ∧ read.Perm read' := by
  have fits' : ∀ r ∈ records', FitsLine r.label := fun r hr => fits r (same.mem_iff.mpr hr)
  rw [decodeRecords_encodeRecords_eq_ok_iff fits] at h
  obtain ⟨read', all, permuted⟩ := List.perm_comp_forall₂ same.symm h
  exact ⟨read', (decodeRecords_encodeRecords_eq_ok_iff fits').mpr all, permuted.symm⟩

/-- Sorted texts are equal exactly if the texts are the same in some order. -/
theorem sortedTexts_eq_iff {texts texts' : List String} :
    texts.mergeSort (fun a b => decide (a ≤ b)) = texts'.mergeSort (fun a b => decide (a ≤ b)) ↔
      texts.Perm texts' := by
  constructor
  · intro equal
    have same := List.mergeSort_perm texts fun a b => decide (a ≤ b)
    rw [equal] at same
    exact same.symm.trans (List.mergeSort_perm _ _)
  · intro same
    have sorted (texts : List String) :
        (texts.mergeSort fun a b => decide (a ≤ b)).Pairwise (· ≤ ·) :=
      List.pairwise_mergeSort' (r := fun a b : String => a ≤ b) texts
    apply List.Perm.eq_of_pairwise' (sorted _) (sorted _)
    exact (List.mergeSort_perm _ _).trans (same.trans (List.mergeSort_perm _ _).symm)

namespace Digest

/-- The bytes that are hashed for records. -/
def recordBytes (records : List Record) : ByteArray :=
  (recordText records).toUTF8

theorem ofRecords_eq_ofBytes (records : List Record) :
    ofRecords records = ofBytes (recordBytes records) := rfl

theorem recordBytes_perm {records records' : List Record} (same : records.Perm records') :
    recordBytes records = recordBytes records' := by
  rw [recordBytes, recordBytes, recordText, recordText, sortedTexts_eq_iff.mpr (same.map _)]

/-- The digest of records does not depend on their order. -/
theorem ofRecords_perm {records records' : List Record} (same : records.Perm records') :
    ofRecords records = ofRecords records' :=
  congrArg ofBytes (recordBytes_perm same)

end Digest

end StagedAlgebra
