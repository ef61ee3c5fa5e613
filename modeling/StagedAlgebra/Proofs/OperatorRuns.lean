import StagedAlgebra.Operator
import StagedAlgebra.Proofs.Outcomes
import StagedAlgebra.Proofs.Reference
import StagedAlgebra.Proofs.Scope

/-!
# What operators make of records

The records that an operator makes, in terms of those that it takes. A selection keeps records, a
projection makes a record of each tuple text, a renaming one of each record. A join makes pairs of
records of its two labels that are filed under one key, and of each such pair one with the same
tuple texts.

## Implementation notes

Grouping is opened once, by `mem_getD_group`: the group of a key holds what was filed under it.
-/

namespace StagedAlgebra

open Operator (group)

theorem getD_foldl_fileUnder (entries : List (String × Record)) (groups : Table (List Record))
    (key : String) :
    ((entries.foldl fileUnder groups).get? key).getD [] =
      (groups.get? key).getD [] ++ (entries.filter (·.1 == key)).map (·.2) := by
  induction entries generalizing groups with
  | nil => simp
  | cons e rest ih =>
      rw [List.foldl_cons, ih, fileUnder, Table.get?_insert]
      by_cases equal : e.1 = key
      · simp [equal]
      · simp [equal]

/-- The group of a key holds what was filed under it. -/
theorem mem_getD_group {entries : List (String × Record)} {key : String} {r : Record} :
    r ∈ ((group entries).get? key).getD [] ↔ (key, r) ∈ entries := by
  rw [group, getD_foldl_fileUnder]
  simp

theorem mem_entries_group {entries : List (String × Record)} {key : String}
    {values : List Record} (h : (key, values) ∈ (group entries).entries) {r : Record} :
    r ∈ values ↔ (key, r) ∈ entries := by
  have stored : (group entries).get? key = some values := Table.get?_eq_some_iff.mpr h
  rw [← mem_getD_group, stored, Option.getD_some]

theorem exists_mem_entries_group {entries : List (String × Record)} {key : String} {r : Record}
    (h : (key, r) ∈ entries) : ∃ values, (key, values) ∈ (group entries).entries ∧ r ∈ values := by
  have member := mem_getD_group.mpr h
  cases stored : (group entries).get? key with
  | none => simp [stored] at member
  | some values =>
      rw [stored, Option.getD_some] at member
      exact ⟨values, Table.get?_eq_some_iff.mp stored, member⟩

namespace Operator

variable {op : Operator} {records out : List Record}

theorem run_eq_ok_iff :
    op.run records = .ok out ↔ ∃ mapped, records.mapM op.map = .ok mapped ∧
      if op.reduces then
        ((group mapped.flatten).entries.mapM fun (key, values) => op.reduce key values).map
          List.flatten = .ok out
      else mapped.flatten.map (·.2) = out := by
  unfold run
  cases records.mapM op.map with
  | error fault => simp
  | ok mapped =>
      by_cases reduces : op.reduces = true <;> simp [reduces]

theorem mem_flatten_mapped {mapped : List (List (String × Record))}
    (h : records.mapM op.map = .ok mapped) {entry : String × Record} :
    entry ∈ mapped.flatten ↔
      ∃ r ∈ records, ∃ entries, op.map r = .ok entries ∧ entry ∈ entries := by
  rw [List.mem_flatten]
  constructor
  · rintro ⟨entries, member, inside⟩
    obtain ⟨r, hr, equal⟩ := (mem_of_mapM_eq_ok h entries).mp member
    exact ⟨r, hr, entries, equal, inside⟩
  · rintro ⟨r, hr, entries, equal, inside⟩
    exact ⟨entries, (mem_of_mapM_eq_ok h entries).mpr ⟨r, hr, equal⟩, inside⟩

/-- What is made without reducing is what the records are mapped to. -/
theorem mem_run_of_not_reduces (h : op.run records = .ok out) (plain : op.reduces = false)
    {r : Record} :
    r ∈ out ↔ ∃ s ∈ records, ∃ entries, op.map s = .ok entries ∧ ∃ key, (key, r) ∈ entries := by
  obtain ⟨mapped, all, rest⟩ := run_eq_ok_iff.mp h
  rw [plain, if_neg (by simp)] at rest
  rw [← rest, List.mem_map]
  constructor
  · rintro ⟨⟨key, s⟩, member, rfl⟩
    obtain ⟨source, hs, entries, equal, inside⟩ := (mem_flatten_mapped all).mp member
    exact ⟨source, hs, entries, equal, key, inside⟩
  · rintro ⟨source, hs, entries, equal, key, inside⟩
    exact ⟨(key, r), (mem_flatten_mapped all).mpr ⟨source, hs, entries, equal, inside⟩, rfl⟩

/-- What is made by reducing comes from the groups of the keys. -/
theorem mem_run_of_reduces (h : op.run records = .ok out) (reduces : op.reduces = true) :
    ∃ mapped, records.mapM op.map = .ok mapped ∧
      (∀ key values, (key, values) ∈ (group mapped.flatten).entries →
        ∃ made, op.reduce key values = .ok made) ∧
      ∀ r, r ∈ out ↔ ∃ key values made, (key, values) ∈ (group mapped.flatten).entries ∧
        op.reduce key values = .ok made ∧ r ∈ made := by
  obtain ⟨mapped, all, rest⟩ := run_eq_ok_iff.mp h
  rw [reduces, if_pos rfl, map_eq_ok_iff] at rest
  obtain ⟨made, reduced, rfl⟩ := rest
  refine ⟨mapped, all, fun key values member => ?_, fun r => ?_⟩
  · obtain ⟨one, -, equal⟩ := exists_of_mapM_eq_ok reduced member
    exact ⟨one, equal⟩
  · rw [List.mem_flatten]
    constructor
    · rintro ⟨one, member, inside⟩
      obtain ⟨⟨key, values⟩, entry, equal⟩ := (mem_of_mapM_eq_ok reduced one).mp member
      exact ⟨key, values, one, entry, equal, inside⟩
    · rintro ⟨key, values, one, entry, equal, inside⟩
      exact ⟨one, (mem_of_mapM_eq_ok reduced one).mpr ⟨(key, values), entry, equal⟩, inside⟩

theorem mem_run_select {c : Condition} (h : (Operator.select c).run records = .ok out)
    {r : Record} :
    r ∈ out ↔ r ∈ records ∧ c.holdsIn r = .ok true := by
  rw [mem_run_of_not_reduces h rfl]
  simp only [map, map_eq_ok_iff]
  constructor
  · rintro ⟨s, hs, entries, ⟨holds, equal, rfl⟩, key, inside⟩
    cases holds with
    | false => simp at inside
    | true =>
        simp only [if_true, List.mem_singleton, Prod.mk.injEq] at inside
        rw [inside.2]
        exact ⟨hs, equal⟩
  · rintro ⟨hr, holds⟩
    exact ⟨r, hr, _, ⟨true, holds, rfl⟩, "", by simp⟩

theorem map_project_eq_ok_iff {attributes : List Attribute} {r : Record}
    {entries : List (String × Record)} :
    (Operator.project attributes).map r = .ok entries ↔
      ∃ made, r.projected attributes = .ok made ∧ entries = [(Tuple.text made.tuple, made)] := by
  simp only [map, Record.projected, map_eq_ok_iff]
  constructor
  · rintro ⟨t, equal, rfl⟩
    exact ⟨_, ⟨t, equal, rfl⟩, rfl⟩
  · rintro ⟨made, ⟨t, equal, rfl⟩, rfl⟩
    exact ⟨t, equal, rfl⟩

theorem exists_of_mem_run_project {attributes : List Attribute}
    (h : (Operator.project attributes).run records = .ok out) {r : Record} (hr : r ∈ out) :
    ∃ s ∈ records, s.projected attributes = .ok r := by
  obtain ⟨mapped, all, -, members⟩ := mem_run_of_reduces h rfl
  obtain ⟨key, values, made, entry, reduced, inside⟩ := (members r).mp hr
  simp only [reduce, Except.ok.injEq] at reduced
  have member : r ∈ values := List.mem_of_mem_take (reduced ▸ inside)
  obtain ⟨s, hs, entries, equal, filed⟩ :=
    (mem_flatten_mapped all).mp ((mem_entries_group entry).mp member)
  obtain ⟨made, projected, rfl⟩ := map_project_eq_ok_iff.mp equal
  simp only [List.mem_singleton, Prod.mk.injEq] at filed
  exact ⟨s, hs, filed.2 ▸ projected⟩

/-- Every projected tuple has a record with its text. -/
theorem exists_mem_run_project {attributes : List Attribute}
    (h : (Operator.project attributes).run records = .ok out) {s made : Record}
    (hs : s ∈ records) (projected : s.projected attributes = .ok made) :
    ∃ r ∈ out, Tuple.text r.tuple = Tuple.text made.tuple := by
  obtain ⟨mapped, all, -, members⟩ := mem_run_of_reduces h rfl
  have filed : (Tuple.text made.tuple, made) ∈ mapped.flatten :=
    (mem_flatten_mapped all).mpr
      ⟨s, hs, _, map_project_eq_ok_iff.mpr ⟨made, projected, rfl⟩, by simp⟩
  obtain ⟨values, entry, member⟩ := exists_mem_entries_group filed
  cases values with
  | nil => cases member
  | cons first others =>
      have kept : first ∈ out := (members first).mpr ⟨_, _, [first], entry, rfl, by simp⟩
      -- The first record of the group was filed under the same text.
      obtain ⟨s', -, entries, equal, inside⟩ := (mem_flatten_mapped all).mp
        ((mem_entries_group entry).mp (List.mem_cons_self ..))
      obtain ⟨made', -, rfl⟩ := map_project_eq_ok_iff.mp equal
      simp only [List.mem_singleton, Prod.mk.injEq] at inside
      exact ⟨first, kept, by rw [inside.2, ← inside.1]⟩

theorem mem_run_rename {newLabel : String}
    (h : (Operator.rename newLabel).run records = .ok out) {r : Record} :
    r ∈ out ↔ ∃ s ∈ records, s.renamed newLabel = .ok r := by
  rw [mem_run_of_not_reduces h rfl]
  simp only [map, Record.renamed, map_eq_ok_iff]
  constructor
  · rintro ⟨s, hs, entries, ⟨t, equal, rfl⟩, key, inside⟩
    simp only [List.mem_singleton, Prod.mk.injEq] at inside
    exact ⟨s, hs, t, equal, inside.2.symm⟩
  · rintro ⟨s, hs, t, equal, rfl⟩
    exact ⟨s, hs, _, ⟨t, equal, rfl⟩, "", by simp⟩

end Operator

theorem mem_seen_or_exists_mem_dropRepeated {records : List Record} {seen : List String}
    {r : Record} (h : r ∈ records) : Tuple.text r.tuple ∈ seen ∨
      ∃ s ∈ dropRepeated seen records, Tuple.text s.tuple = Tuple.text r.tuple := by
  induction records generalizing seen with
  | nil => cases h
  | cons first rest ih =>
      simp only [dropRepeated]
      by_cases known : seen.contains (Tuple.text first.tuple) = true
      · rw [if_pos known]
        rcases List.mem_cons.mp h with rfl | h
        · exact .inl (by simpa using known)
        · exact ih h
      · rw [if_neg known]
        rcases List.mem_cons.mp h with rfl | h
        · exact .inr ⟨r, by simp, rfl⟩
        · rcases @ih (Tuple.text first.tuple :: seen) h with listed | ⟨s, hs, equal⟩
          · rcases List.mem_cons.mp listed with equal | listed
            · exact .inr ⟨first, by simp, equal.symm⟩
            · exact .inl listed
          · exact .inr ⟨s, by simp [hs], equal⟩

/-- A list without repetitions still has every tuple text. -/
theorem exists_mem_dropRepeated {records : List Record} {r : Record} (h : r ∈ records) :
    ∃ s ∈ dropRepeated [] records, Tuple.text s.tuple = Tuple.text r.tuple :=
  (mem_seen_or_exists_mem_dropRepeated h).resolve_left (by simp)

namespace KeyJoin

variable {j : KeyJoin}

/-- A record is filed under a key. -/
def Files (j : KeyJoin) (r : Record) (key : String) : Prop :=
  ∃ values forms, j.keyValues r = .ok values ∧ values.mapM Scalar.keyForm? = some forms ∧
    keyText forms = key

theorem mem_file_iff {r s : Record} {key : String} :
    (∃ entries, j.file r = .ok entries ∧ (key, s) ∈ entries) ↔ s = r ∧ j.Files r key := by
  simp only [file, map_eq_ok_iff, Files]
  constructor
  · rintro ⟨entries, ⟨values, equal, rfl⟩, inside⟩
    cases forms : values.mapM Scalar.keyForm? with
    | none => simp [forms] at inside
    | some fs =>
        simp only [forms, List.mem_singleton, Prod.mk.injEq] at inside
        exact ⟨inside.2, values, fs, equal, forms, inside.1.symm⟩
  · rintro ⟨rfl, values, forms, equal, all, rfl⟩
    exact ⟨_, ⟨values, equal, rfl⟩, by simp [all]⟩

theorem sides_eq_ok {key : String} {values left right : List Record}
    (h : j.sides key values = .ok (left, right)) :
    left = values.filter (·.label = j.leftLabel) ∧
      right = values.filter fun r => r.label ≠ j.leftLabel ∧ r.label = j.rightLabel := by
  induction values generalizing left right with
  | nil =>
      simp only [sides, Except.ok.injEq, Prod.mk.injEq] at h
      simp [← h.1, ← h.2]
  | cons r rest ih =>
      simp only [sides] at h
      split at h
      · rename_i isLeft
        obtain ⟨⟨ls, rs⟩, others, equal⟩ := map_eq_ok_iff.mp h
        simp only [Prod.mk.injEq] at equal
        obtain ⟨hl, hr⟩ := ih others
        rw [← equal.1, ← equal.2, hl, hr]
        simp [isLeft]
      · rename_i notLeft
        split at h
        · rename_i isRight
          obtain ⟨⟨ls, rs⟩, others, equal⟩ := map_eq_ok_iff.mp h
          simp only [Prod.mk.injEq] at equal
          obtain ⟨hl, hr⟩ := ih others
          rw [← equal.1, ← equal.2, hl, hr]
          have apart : j.rightLabel ≠ j.leftLabel := isRight ▸ notLeft
          simp [isRight, apart]
        · cases h

theorem exists_sides {key : String} {values : List Record}
    (h : ∀ r ∈ values, r.label = j.leftLabel ∨ r.label = j.rightLabel) :
    ∃ both, j.sides key values = .ok both := by
  induction values with
  | nil => exact ⟨_, rfl⟩
  | cons r rest ih =>
      obtain ⟨both, others⟩ := ih fun s hs => h s (by simp [hs])
      simp only [sides, others, Except.map]
      split
      · exact ⟨_, rfl⟩
      · rename_i notLeft
        rw [if_pos ((h r (by simp)).resolve_left notLeft)]
        exact ⟨_, rfl⟩

theorem mem_pair_iff {key : String} {values made : List Record} (h : j.pair key values = .ok made)
    {r : Record} :
    r ∈ made ↔ ∃ l ∈ dropRepeated [] (values.filter (·.label = j.leftLabel)),
      ∃ s ∈ dropRepeated [] (values.filter fun r =>
        r.label ≠ j.leftLabel ∧ r.label = j.rightLabel), r = j.merge l s := by
  obtain ⟨⟨left, right⟩, sides, rfl⟩ := map_eq_ok_iff.mp h
  obtain ⟨rfl, rfl⟩ := sides_eq_ok sides
  simp only [List.mem_flatMap, List.mem_map]
  constructor
  · rintro ⟨l, hl, s, hs, rfl⟩
    exact ⟨l, hl, s, hs, rfl⟩
  · rintro ⟨l, hl, s, hs, rfl⟩
    exact ⟨l, hl, s, hs, rfl⟩

end KeyJoin

namespace Operator

variable {j : KeyJoin} {records out : List Record}

/-- What a join makes are pairs of records of its labels that are filed under one key. -/
theorem exists_of_mem_run_join (h : (Operator.join j).run records = .ok out) {r : Record}
    (hr : r ∈ out) :
    ∃ l ∈ records, ∃ s ∈ records, l.label = j.leftLabel ∧ s.label = j.rightLabel ∧
      (∃ key, j.Files l key ∧ j.Files s key) ∧ r = j.merge l s := by
  obtain ⟨mapped, all, -, members⟩ := mem_run_of_reduces h rfl
  obtain ⟨key, values, made, entry, reduced, inside⟩ := (members r).mp hr
  obtain ⟨l, hl, s, hs, rfl⟩ := (KeyJoin.mem_pair_iff reduced).mp inside
  have filed {x : Record} (hx : x ∈ values) : x ∈ records ∧ j.Files x key := by
    obtain ⟨y, hy, entries, equal, inside⟩ :=
      (mem_flatten_mapped all).mp ((mem_entries_group entry).mp hx)
    obtain ⟨rfl, files⟩ := KeyJoin.mem_file_iff.mp ⟨entries, equal, inside⟩
    exact ⟨hy, files⟩
  obtain ⟨left, leftLabel⟩ := List.mem_filter.mp (mem_of_mem_dropRepeated hl)
  obtain ⟨right, rightLabel⟩ := List.mem_filter.mp (mem_of_mem_dropRepeated hs)
  simp only [decide_eq_true_eq] at leftLabel rightLabel
  exact ⟨l, (filed left).1, s, (filed right).1, leftLabel, rightLabel.2,
    ⟨key, (filed left).2, (filed right).2⟩, rfl⟩

/-- Every such pair has one with the same tuple texts among what the join makes. -/
theorem exists_mem_run_join (h : (Operator.join j).run records = .ok out)
    (apart : j.leftLabel ≠ j.rightLabel) {l s : Record} (hl : l ∈ records) (hs : s ∈ records)
    (leftLabel : l.label = j.leftLabel) (rightLabel : s.label = j.rightLabel) {key : String}
    (leftKey : j.Files l key) (rightKey : j.Files s key) :
    ∃ l' ∈ records, ∃ s' ∈ records, j.merge l' s' ∈ out ∧ l'.label = j.leftLabel ∧
      s'.label = j.rightLabel ∧ Tuple.text l'.tuple = Tuple.text l.tuple ∧
      Tuple.text s'.tuple = Tuple.text s.tuple := by
  obtain ⟨mapped, all, reduces, members⟩ := mem_run_of_reduces h rfl
  have filed {x : Record} (hx : x ∈ records) (files : j.Files x key) :
      (key, x) ∈ mapped.flatten := by
    obtain ⟨entries, equal, inside⟩ := KeyJoin.mem_file_iff.mpr ⟨rfl, files⟩
    exact (mem_flatten_mapped all).mpr ⟨x, hx, entries, equal, inside⟩
  obtain ⟨values, entry, left⟩ := exists_mem_entries_group (filed hl leftKey)
  have right : s ∈ values := (mem_entries_group entry).mpr (filed hs rightKey)
  obtain ⟨made, reduced⟩ := reduces key values entry
  have source {x : Record} (hx : x ∈ values) : x ∈ records := by
    obtain ⟨y, hy, entries, equal, inside⟩ :=
      (mem_flatten_mapped all).mp ((mem_entries_group entry).mp hx)
    obtain ⟨rfl, -⟩ := KeyJoin.mem_file_iff.mp ⟨entries, equal, inside⟩
    exact hy
  have left' : l ∈ values.filter (·.label = j.leftLabel) :=
    List.mem_filter.mpr ⟨left, by simpa using leftLabel⟩
  have right' : s ∈ values.filter fun r => r.label ≠ j.leftLabel ∧ r.label = j.rightLabel := by
    refine List.mem_filter.mpr ⟨right, ?_⟩
    simpa [rightLabel] using Ne.symm apart
  obtain ⟨l', hl', sameLeft⟩ := exists_mem_dropRepeated left'
  obtain ⟨s', hs', sameRight⟩ := exists_mem_dropRepeated right'
  obtain ⟨inLeft, isLeft⟩ := List.mem_filter.mp (mem_of_mem_dropRepeated hl')
  obtain ⟨inRight, isRight⟩ := List.mem_filter.mp (mem_of_mem_dropRepeated hs')
  simp only [decide_eq_true_eq] at isLeft isRight
  refine ⟨l', source inLeft, s', source inRight, ?_, isLeft, isRight.2, sameLeft, sameRight⟩
  exact (members _).mpr ⟨key, values, made, entry, reduced,
    (KeyJoin.mem_pair_iff reduced).mpr ⟨l', hl', s', hs', rfl⟩⟩

end Operator

end StagedAlgebra
