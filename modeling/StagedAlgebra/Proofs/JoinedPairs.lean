import Mathlib.Algebra.BigOperators.Group.Finset.Basic
import Mathlib.Data.List.ProdSigma
import StagedAlgebra.Proofs.RowOrder

/-!
# The pairs of a join

A join files records of two labels under the texts of their joining forms, drops the repeated
tuples of each side under each key, and merges every pair of what is left. So under a key with `m`
tuples of the left and `n` of the right it makes `m * n` records, and of all records it makes those
whose two sides have the same joining forms, none of them absent. Where the sides share no key of
a tuple, a merged tuple can be taken apart again, and no tuple is made twice.

## Implementation notes

`run_join_eq` gives the result as one list of pairs, key by key, that is then merged. Everything
else is read off that list: its length, its members, and that it has no repetitions. Merging is
looked at only in `Table.union_inj`.
-/

namespace StagedAlgebra

/-- Two tables that have no key in common with two others are known from their unions with them. -/
theorem Table.union_inj {β : Type u} {t t' s s' : Table β} (apart : t.keys.Disjoint s.keys)
    (apart' : t'.keys.Disjoint s'.keys) (across : t.keys.Disjoint s'.keys)
    (across' : t'.keys.Disjoint s.keys) (h : t.union s = t'.union s') : t = t' ∧ s = s' := by
  have same (k : String) : (s.get? k).or (t.get? k) = (s'.get? k).or (t'.get? k) := by
    rw [← get?_union, h, get?_union]
  constructor
  · refine ext_get? fun k => ?_
    by_cases first : k ∈ t.keys ∨ k ∈ t'.keys
    · have missed : s.get? k = none :=
        get?_eq_none_iff.mpr (first.elim (fun hk => apart hk) fun hk => across' hk)
      have missed' : s'.get? k = none :=
        get?_eq_none_iff.mpr (first.elim (fun hk => across hk) fun hk => apart' hk)
      simpa [missed, missed'] using same k
    · rw [not_or] at first
      rw [get?_eq_none_iff.mpr first.1, get?_eq_none_iff.mpr first.2]
  · refine ext_get? fun k => ?_
    by_cases second : k ∈ s.keys ∨ k ∈ s'.keys
    · have missed : t.get? k = none :=
        get?_eq_none_iff.mpr fun hk => second.elim (fun hs => apart hk hs) fun hs => across hk hs
      have missed' : t'.get? k = none :=
        get?_eq_none_iff.mpr fun hk => second.elim (fun hs => across' hk hs) fun hs => apart' hk hs
      simpa [missed, missed'] using same k
    · rw [not_or] at second
      rw [get?_eq_none_iff.mpr second.1, get?_eq_none_iff.mpr second.2]

/-- As many records are left without repetitions as there are texts. -/
theorem length_dropRepeated (records : List Record) :
    (dropRepeated [] records).length = (records.map fun r => Tuple.text r.tuple).toFinset.card := by
  have distinct := (nodup_text_dropRepeated [] records).1
  rw [← List.length_map (f := fun r : Record => Tuple.text r.tuple),
    ← List.toFinset_card_of_nodup distinct]
  congr 1
  ext text
  simp only [List.mem_toFinset, List.mem_map]
  constructor
  · rintro ⟨r, hr, rfl⟩
    exact ⟨r, mem_of_mem_dropRepeated hr, rfl⟩
  · rintro ⟨r, hr, rfl⟩
    exact exists_mem_dropRepeated hr

namespace KeyJoin

variable {j : KeyJoin} {records : List Record}

/-- The key under which a record is filed, if it is filed at all. -/
def filedKey? (j : KeyJoin) (r : Record) : Option String :=
  match j.file r with
  | .ok ((key, _) :: _) => some key
  | _ => none

/-- The keys under which some of the records are filed. -/
def shuffleKeys (j : KeyJoin) (records : List Record) : Finset String :=
  (records.filterMap j.filedKey?).toFinset

/-- The texts of the tuples of a label that are filed under a key. -/
def textsUnder (j : KeyJoin) (records : List Record) (label key : String) : Finset String :=
  ((records.filter fun r => r.label = label ∧ j.filedKey? r = some key).map
    fun r => Tuple.text r.tuple).toFinset

/-- A record is filed once or not at all. -/
theorem entries_of_file {r : Record} {entries : List (String × Record)}
    (h : j.file r = .ok entries) : entries = ((j.filedKey? r).map (·, r)).toList := by
  simp only [filedKey?, h]
  obtain ⟨values, -, rfl⟩ := map_eq_ok_iff.mp h
  cases values.mapM Scalar.keyForm? <;> rfl

theorem filedKey?_eq_some_iff {r : Record} {key : String} :
    j.filedKey? r = some key ↔ j.Files r key := by
  constructor
  · intro h
    unfold filedKey? at h
    split at h
    · rename_i first s others filed
      cases h
      exact (mem_file_iff.mp ⟨_, filed, List.mem_cons_self ..⟩).2
    · cases h
  · intro files
    obtain ⟨entries, filed, member⟩ := mem_file_iff.mpr ⟨rfl, files⟩
    rw [entries_of_file filed, Option.mem_toList] at member
    obtain ⟨other, found, equal⟩ := Option.map_eq_some_iff.mp member
    rw [found, (Prod.mk.inj equal).1]

/-- Two records are filed under one key exactly if they have all joining forms in common. -/
theorem exists_filedKey?_iff {l s : Record} :
    (∃ key, j.filedKey? l = some key ∧ j.filedKey? s = some key) ↔
      ∃ forms, HasForms l j.pairs forms ∧ HasForms s j.pairs forms := by
  simp only [filedKey?_eq_some_iff]
  exact exists_files_iff.trans exists_hasForms_iff.symm

/-- What is shuffled is each record under its key. -/
theorem flatten_mapped {mapped : List (List (String × Record))}
    (all : records.mapM (Operator.join j).map = .ok mapped) :
    mapped.flatten = records.filterMap fun r => (j.filedKey? r).map (·, r) := by
  rw [mapM_eq_ok_iff] at all
  induction all with
  | nil => rfl
  | @cons r entries rest others filed _ ih =>
      rw [List.flatten_cons, entries_of_file filed, ih, List.filterMap_cons]
      cases j.filedKey? r <;> rfl

theorem filedUnder_eq_filter (records : List Record) (key : String) :
    filedUnder (records.filterMap fun r => (j.filedKey? r).map (·, r)) key =
      records.filter fun r => j.filedKey? r = some key := by
  induction records with
  | nil => rfl
  | cons r rest ih =>
      rw [filedUnder] at ih ⊢
      cases found : j.filedKey? r with
      | none => simp [found, ih]
      | some other =>
          by_cases equal : other = key
          · simp [found, equal, ih]
          · simp [found, equal, ih]

/-- The records of a label that are filed under a key, repeated tuples once. -/
def sideUnder (j : KeyJoin) (records : List Record) (label key : String) : List Record :=
  dropRepeated [] (records.filter fun r => r.label = label ∧ j.filedKey? r = some key)

/-- The pairs of records that meet under a key. -/
def pairsUnder (j : KeyJoin) (records : List Record) (key : String) : List (Record × Record) :=
  j.sideUnder records j.leftLabel key ×ˢ j.sideUnder records j.rightLabel key

theorem mem_sideUnder_iff {label key : String} {r : Record} :
    r ∈ j.sideUnder records label key ↔
      r ∈ records ∧ r.label = label ∧ j.filedKey? r = some key := by
  have labels : ∀ s ∈ records.filter fun r => r.label = label ∧ j.filedKey? r = some key,
      s.label = label := by
    intro s hs
    have both := (List.mem_filter.mp hs).2
    rw [decide_eq_true_eq] at both
    exact both.1
  rw [sideUnder, Plan.mem_dropRepeated_iff labels, List.mem_filter, decide_eq_true_eq]

theorem nodup_sideUnder (j : KeyJoin) (records : List Record) (label key : String) :
    (j.sideUnder records label key).Nodup :=
  (nodup_text_dropRepeated [] _).1.of_map

theorem length_sideUnder (j : KeyJoin) (records : List Record) (label key : String) :
    (j.sideUnder records label key).length = (j.textsUnder records label key).card :=
  length_dropRepeated _

/-- The records of two labels under a key are paired and merged. -/
theorem pair_eq_ok (apart : j.leftLabel ≠ j.rightLabel) {key : String}
    (labels : ∀ r ∈ records, r.label = j.leftLabel ∨ r.label = j.rightLabel) :
    j.pair key (records.filter fun r => j.filedKey? r = some key) =
      .ok ((j.pairsUnder records key).map fun p => j.merge p.1 p.2) := by
  obtain ⟨⟨left, right⟩, sides⟩ : ∃ both,
      j.sides key (records.filter fun r => j.filedKey? r = some key) = .ok both :=
    exists_sides fun r hr => labels r (List.mem_filter.mp hr).1
  obtain ⟨rfl, rfl⟩ := sides_eq_ok sides
  have lefts : (records.filter fun r => j.filedKey? r = some key).filter (·.label = j.leftLabel) =
      records.filter fun r => r.label = j.leftLabel ∧ j.filedKey? r = some key := by
    rw [List.filter_filter]
    exact List.filter_congr fun r _ => by simp
  have rights : ((records.filter fun r => j.filedKey? r = some key).filter fun r =>
      r.label ≠ j.leftLabel ∧ r.label = j.rightLabel) =
        records.filter fun r => r.label = j.rightLabel ∧ j.filedKey? r = some key := by
    rw [List.filter_filter]
    refine List.filter_congr fun r _ => ?_
    by_cases right : r.label = j.rightLabel
    · simp [right, Ne.symm apart]
    · simp [right]
  rw [pair, sides, Except.map, lefts, rights, pairsUnder, sideUnder, sideUnder]
  simp only [SProd.sprod, List.product, List.map_flatMap, List.map_map]
  rfl

/-- The keys of the shuffle are those of the records. -/
theorem mem_keys_group {key : String} :
    key ∈ (Operator.group (records.filterMap fun r => (j.filedKey? r).map (·, r))).keys ↔
      ∃ r ∈ records, j.filedKey? r = some key := by
  rw [Operator.group, mem_keys_foldl_fileUnder]
  simp

end KeyJoin

namespace Operator

variable {j : KeyJoin} {records : List Record}

/-- A join of records of its two labels that it can file merges the pairs that meet under its keys,
key by key. -/
theorem run_join_eq (apart : j.leftLabel ≠ j.rightLabel)
    (labels : ∀ r ∈ records, r.label = j.leftLabel ∨ r.label = j.rightLabel)
    (filed : ∀ r ∈ records, ∃ entries, (Operator.join j).map r = .ok entries) :
    ∃ keys : List String, keys.Nodup ∧ keys.toFinset = j.shuffleKeys records ∧
      (Operator.join j).run records =
        .ok ((keys.flatMap (j.pairsUnder records)).map fun p => j.merge p.1 p.2) := by
  obtain ⟨mapped, all⟩ := exists_mapM_eq_ok filed
  have shuffled := KeyJoin.flatten_mapped all
  refine ⟨(group mapped.flatten).keys, (group mapped.flatten).keys_nodup, ?_, ?_⟩
  · ext key
    rw [shuffled, List.mem_toFinset, KeyJoin.mem_keys_group, KeyJoin.shuffleKeys]
    simp
  · have reduced : ((group mapped.flatten).entries.mapM fun (key, values) =>
        (Operator.join j).reduce key values) =
          .ok ((group mapped.flatten).keys.map fun key =>
            (j.pairsUnder records key).map fun p => j.merge p.1 p.2) := by
      rw [entries_group, mapM_eq_ok_iff, List.forall₂_map_left_iff, List.forall₂_map_right_iff,
        List.forall₂_same]
      intro key _
      rw [shuffled, KeyJoin.filedUnder_eq_filter]
      exact KeyJoin.pair_eq_ok apart labels
    refine run_eq_ok_iff.mpr ⟨mapped, all, ?_⟩
    simp only [reduces, if_true, reduced, Except.map]
    rw [← List.flatMap_def, List.map_flatMap]

end Operator

namespace KeyJoin

variable {j : KeyJoin} {records : List Record}

/-- The records that a join makes are the pairs of its two sides, each once. -/
structure PairsOnce (j : KeyJoin) (records made : List Record) : Prop where
  /-- Under each key every tuple of the left meets every tuple of the right once. -/
  length : made.length = ∑ key ∈ j.shuffleKeys records,
    (j.textsUnder records j.leftLabel key).card * (j.textsUnder records j.rightLabel key).card
  /-- What is made are the merged pairs whose joining forms are all there and are the same. -/
  mem_iff : ∀ r, r ∈ made ↔ ∃ l ∈ records, ∃ s ∈ records, l.label = j.leftLabel ∧
    s.label = j.rightLabel ∧ (∃ forms, HasForms l j.pairs forms ∧ HasForms s j.pairs forms) ∧
      r = j.merge l s
  /-- No tuple is made twice if the two sides have no keys in common. -/
  nodup : (∀ l ∈ records, ∀ s ∈ records, l.label = j.leftLabel → s.label = j.rightLabel →
    l.tuple.keys.Disjoint s.tuple.keys) → (made.map fun r => Tuple.text r.tuple).Nodup

theorem mem_pairsUnder_iff {key : String} {p : Record × Record} :
    p ∈ j.pairsUnder records key ↔
      (p.1 ∈ records ∧ p.1.label = j.leftLabel ∧ j.filedKey? p.1 = some key) ∧
        p.2 ∈ records ∧ p.2.label = j.rightLabel ∧ j.filedKey? p.2 = some key := by
  rw [pairsUnder, ← mem_sideUnder_iff, ← mem_sideUnder_iff]
  exact List.mem_product

theorem length_pairsUnder (j : KeyJoin) (records : List Record) (key : String) :
    (j.pairsUnder records key).length =
      (j.textsUnder records j.leftLabel key).card * (j.textsUnder records j.rightLabel key).card := by
  rw [pairsUnder, List.length_product, length_sideUnder, length_sideUnder]

/-- A pair of records meets under one key only, and there once. -/
theorem nodup_flatMap_pairsUnder {keys : List String} (distinct : keys.Nodup) :
    (keys.flatMap (j.pairsUnder records)).Nodup := by
  refine List.nodup_flatMap.mpr ⟨fun key _ => ?_, distinct.imp fun {key other} apart p hp hq => ?_⟩
  · exact (j.nodup_sideUnder ..).product (j.nodup_sideUnder ..)
  · have first := (mem_pairsUnder_iff.mp hp).1.2.2
    have second := (mem_pairsUnder_iff.mp hq).1.2.2
    rw [first, Option.some.injEq] at second
    exact apart second

theorem mem_merged_iff {keys : List String} (all : keys.toFinset = j.shuffleKeys records)
    {r : Record} :
    r ∈ (keys.flatMap (j.pairsUnder records)).map (fun p => j.merge p.1 p.2) ↔
      ∃ l ∈ records, ∃ s ∈ records, l.label = j.leftLabel ∧ s.label = j.rightLabel ∧
        (∃ forms, HasForms l j.pairs forms ∧ HasForms s j.pairs forms) ∧ r = j.merge l s := by
  simp only [← exists_filedKey?_iff, List.mem_map, List.mem_flatMap]
  constructor
  · rintro ⟨⟨l, s⟩, ⟨key, -, member⟩, rfl⟩
    obtain ⟨⟨hl, left, leftKey⟩, hs, right, rightKey⟩ := mem_pairsUnder_iff.mp member
    exact ⟨l, hl, s, hs, left, right, ⟨key, leftKey, rightKey⟩, rfl⟩
  · rintro ⟨l, hl, s, hs, left, right, ⟨key, leftKey, rightKey⟩, rfl⟩
    have used : key ∈ keys := by
      rw [← List.mem_toFinset, all, shuffleKeys, List.mem_toFinset, List.mem_filterMap]
      exact ⟨l, hl, leftKey⟩
    exact ⟨(l, s), ⟨key, used,
      mem_pairsUnder_iff.mpr ⟨⟨hl, left, leftKey⟩, hs, right, rightKey⟩⟩, rfl⟩

/-- A pair of records is known from the text of the merged tuple if the sides have no keys in
common. -/
theorem eq_of_text_merge {keys : List String} (disjoint : ∀ l ∈ records, ∀ s ∈ records,
      l.label = j.leftLabel → s.label = j.rightLabel → l.tuple.keys.Disjoint s.tuple.keys)
    {p q : Record × Record} (hp : p ∈ keys.flatMap (j.pairsUnder records))
    (hq : q ∈ keys.flatMap (j.pairsUnder records))
    (h : Tuple.text (j.merge p.1 p.2).tuple = Tuple.text (j.merge q.1 q.2).tuple) : p = q := by
  obtain ⟨key, -, pairs⟩ := List.mem_flatMap.mp hp
  obtain ⟨key', -, pairs'⟩ := List.mem_flatMap.mp hq
  obtain ⟨⟨hl, left, -⟩, hs, right, -⟩ := mem_pairsUnder_iff.mp pairs
  obtain ⟨⟨hl', left', -⟩, hs', right', -⟩ := mem_pairsUnder_iff.mp pairs'
  obtain ⟨first, second⟩ := Table.union_inj (disjoint _ hl _ hs left right)
    (disjoint _ hl' _ hs' left' right') (disjoint _ hl _ hs' left right')
    (disjoint _ hl' _ hs left' right) (Tuple.text_injective h)
  apply Prod.ext
  · exact Record.eq_of_text (left.trans left'.symm) (congrArg Tuple.text first)
  · exact Record.eq_of_text (right.trans right'.symm) (congrArg Tuple.text second)

/-- A join of records of its two labels that it can file makes every matching pair exactly once. -/
theorem run_join_pairsOnce (apart : j.leftLabel ≠ j.rightLabel)
    (labels : ∀ r ∈ records, r.label = j.leftLabel ∨ r.label = j.rightLabel)
    (filed : ∀ r ∈ records, ∃ entries, (Operator.join j).map r = .ok entries) :
    ∃ made, (Operator.join j).run records = .ok made ∧ j.PairsOnce records made := by
  obtain ⟨keys, distinct, all, ran⟩ := Operator.run_join_eq apart labels filed
  refine ⟨_, ran, ?_, fun r => mem_merged_iff all, fun disjoint => ?_⟩
  · rw [List.length_map, List.length_flatMap, ← all, List.sum_toFinset _ distinct]
    simp only [length_pairsUnder]
  · rw [List.map_map]
    exact (nodup_flatMap_pairsUnder distinct).map_on fun p hp q hq =>
      eq_of_text_merge disjoint hp hq

/-- A price and a number of one size meet, a text of digits and a number do not, and an absent value
meets nothing; one record comes twice. -/
theorem run_join_pairsOnce_prices :
    let j : KeyJoin := ⟨"A", "B", [(.qualified "A" "price", .qualified "B" "price"),
      (.qualified "B" "size", .qualified "A" "size")]⟩
    let sold : Record := ⟨"A", .ofList [("A.price", .int 16), ("A.size", .text "1")]⟩
    let records : List Record := [sold,
      ⟨"B", .ofList [("B.price", .float Plan.sixteen), ("B.size", .text "1")]⟩, sold,
      ⟨"B", .ofList [("B.price", .int 16), ("B.size", .int 1)]⟩,
      ⟨"B", .ofList [("B.price", .int 16), ("B.size", .text "1")]⟩,
      ⟨"A", .ofList [("A.price", .null), ("A.size", .text "1")]⟩]
    j.leftLabel ≠ j.rightLabel ∧
      (∀ r ∈ records, r.label = j.leftLabel ∨ r.label = j.rightLabel) ∧
      (∀ r ∈ records, ∃ entries, (Operator.join j).map r = .ok entries) ∧
      ∃ made, (Operator.join j).run records = .ok made ∧ j.PairsOnce records made ∧
        made.length = 2 := by
  intro j sold records
  have apart : j.leftLabel ≠ j.rightLabel := by decide
  have labels : ∀ r ∈ records, r.label = j.leftLabel ∨ r.label = j.rightLabel := by decide
  have filed : ∀ r ∈ records, ∃ entries, (Operator.join j).map r = .ok entries := by
    have all : ∀ r ∈ records, ((Operator.join j).map r).toOption.isSome = true := by decide +kernel
    intro r hr
    have found := all r hr
    cases outcome : (Operator.join j).map r with
    | error fault => simp [outcome, Except.toOption] at found
    | ok entries => exact ⟨entries, rfl⟩
  obtain ⟨made, ran, once⟩ := run_join_pairsOnce apart labels filed
  refine ⟨apart, labels, filed, made, ran, once, ?_⟩
  rw [once.length]
  decide +kernel

end KeyJoin

end StagedAlgebra
