import StagedAlgebra.Proofs.RowOrder

/-!
# Projecting once more

A record that is cut down to some attributes finds each of them under the same key as before: what
was left out could only have come first, or have made a bare name ambiguous. So cutting it down
again changes nothing. The records that a projection makes ascend by the texts of their tuples,
whatever the order of those that it takes, and projecting them again gives the same list.

## Implementation notes

The two runs are not followed side by side. Both results ascend strictly, and they have the same
members, because a record of the first is its own projection.
-/

namespace StagedAlgebra

theorem Table.get?_ofList_eq_some_iff {β : Type u} {t : Table β} {entries : List (String × β)}
    (inside : ∀ e ∈ entries, t.get? e.1 = some e.2) {k : String} {v : β} :
    (ofList entries).get? k = some v ↔ (k, v) ∈ entries := by
  rw [get?_ofList]
  constructor
  · intro found
    exact List.mem_reverse.mp (mem_of_find? found)
  · intro member
    have known : (find? k entries.reverse).isSome = true := by
      rw [find?_isSome_iff, List.map_reverse, List.mem_reverse]
      exact List.mem_map.mpr ⟨_, member, rfl⟩
    obtain ⟨w, found⟩ := Option.isSome_iff_exists.mp known
    have other := inside _ (List.mem_reverse.mp (mem_of_find? found))
    rw [found, ← other, inside _ member]

namespace Record

variable {r part made : Record} {a : Attribute} {attributes : List Attribute}

/-- A record has its label and some of its entries from another one. -/
structure PartOf (part r : Record) : Prop where
  label : part.label = r.label
  entries : ∀ k v, part.tuple.get? k = some v → r.tuple.get? k = some v

theorem PartOf.entry?_eq_none (h : part.PartOf r) {key : String} (missed : r.entry? key = none) :
    part.entry? key = none := by
  rw [ entry?, Option.map_eq_none_iff] at missed ⊢
  cases found : part.tuple.get? key with
  | none => rfl
  | some v =>
      rw [h.entries key v found] at missed
      cases missed

theorem entry?_of_kept {key : String} {e : String × Scalar} (found : r.entry? key = some e)
    (kept : part.tuple.get? e.1 = some e.2) : part.entry? key = some e := by
  obtain ⟨v, -, rfl⟩ := Option.map_eq_some_iff.mp found
  rw [ entry?, kept, Option.map_some]

/-- The only entry whose key ends in a name is still the only one in a part that has it. -/
theorem PartOf.entryEndingIn?_eq (h : part.PartOf r) {name : String} {e : String × Scalar}
    (found : r.entryEndingIn? name = some e) (kept : part.tuple.get? e.1 = some e.2) :
    part.entryEndingIn? name = some e := by
  have only := filter_of_entryEndingIn? found
  have ends : keyEndsIn name e.1 = true := by
    have member : e ∈ r.tuple.entries.filter fun e => keyEndsIn name e.1 := by simp [only]
    exact (List.mem_filter.mp member).2
  have same : (part.tuple.entries.filter fun e => keyEndsIn name e.1) = [e] := by
    have distinct : part.tuple.entries.Nodup := part.tuple.keys_nodup.of_map
    refine eq_singleton_of_nodup (distinct.filter _)
      (List.mem_filter.mpr ⟨Table.get?_eq_some_iff.mp kept, ends⟩) fun f hf => ?_
    obtain ⟨member, ending⟩ := List.mem_filter.mp hf
    have inside : f ∈ r.tuple.entries :=
      Table.get?_eq_some_iff.mp (h.entries _ _ (Table.get?_eq_some_iff.mpr member))
    rw [← List.mem_singleton, ← only]
    exact List.mem_filter.mpr ⟨inside, ending⟩
  simp only [entryEndingIn?, same]

/-- What an attribute refers to in a record, it refers to in every part that still has it. -/
theorem PartOf.lookup?_eq (h : part.PartOf r) {e : String × Scalar} (found : r.lookup? a = some e)
    (kept : part.tuple.get? e.1 = some e.2) : part.lookup? a = some e := by
  simp only [lookup?, h.label] at found ⊢
  cases key : a.qualifiedKey? with
  | some key =>
      rw [key] at found
      rcases Option.or_eq_some_iff.mp found with named | ⟨missed, underLabel⟩
      · simp only [entry?_of_kept named kept, Option.some_or]
      · simp only [h.entry?_eq_none missed, entry?_of_kept underLabel kept, Option.none_or]
  | none =>
      rw [key] at found
      rcases Option.or_eq_some_iff.mp found with underLabel | ⟨missed, ending⟩
      · simp only [entry?_of_kept underLabel kept, Option.some_or]
      · simp only [h.entry?_eq_none missed, h.entryEndingIn?_eq ending kept, Option.none_or]

theorem isSome_lookup?_of_projectEntries {done t : Tuple}
    (h : projectEntries r done attributes = .ok t) : ∀ a ∈ attributes, (r.lookup? a).isSome := by
  induction attributes generalizing done with
  | nil => simp
  | cons first rest ih =>
      cases found : r.lookup? first with
      | none => simp [projectEntries, lookup, found] at h
      | some e =>
          rw [projectEntries, lookup_eq_ok found] at h
          intro a ha
          rcases List.mem_cons.mp ha with rfl | ha
          · simp [found]
          · exact ih h a ha

/-- A record can be cut down exactly to attributes that it has, and keeps the entries that they
refer to. -/
theorem projected_eq_ok_iff : r.projected attributes = .ok made ↔
    (∀ a ∈ attributes, (r.lookup? a).isSome) ∧
      made = ⟨r.label, Table.ofList (attributes.filterMap r.lookup?)⟩ := by
  constructor
  · intro h
    obtain ⟨t, entries, -⟩ := map_eq_ok_iff.mp h
    have found := isSome_lookup?_of_projectEntries entries
    rw [projected_eq_ok found, Except.ok.injEq] at h
    exact ⟨found, h.symm⟩
  · rintro ⟨found, rfl⟩
    exact projected_eq_ok found

theorem get?_of_projected (h : r.projected attributes = .ok made) {k : String} {v : Scalar} :
    made.tuple.get? k = some v ↔ ∃ a ∈ attributes, r.lookup? a = some (k, v) := by
  obtain ⟨-, rfl⟩ := projected_eq_ok_iff.mp h
  have inside : ∀ e ∈ attributes.filterMap r.lookup?, r.tuple.get? e.1 = some e.2 := by
    intro e he
    obtain ⟨a, -, found⟩ := List.mem_filterMap.mp he
    exact get?_of_lookup? found
  rw [Table.get?_ofList_eq_some_iff inside, List.mem_filterMap]

theorem partOf_of_projected (h : r.projected attributes = .ok made) : made.PartOf r := by
  refine ⟨by rw [(projected_eq_ok_iff.mp h).2], fun k v found => ?_⟩
  obtain ⟨a, -, entry⟩ := (get?_of_projected h).mp found
  exact get?_of_lookup? entry

/-- A record that is cut down to attributes is its own projection to them. -/
theorem projected_projected (h : r.projected attributes = .ok made) :
    made.projected attributes = .ok made := by
  obtain ⟨found, equal⟩ := projected_eq_ok_iff.mp h
  have again : ∀ a ∈ attributes, made.lookup? a = r.lookup? a := by
    intro a ha
    obtain ⟨e, entry⟩ := Option.isSome_iff_exists.mp (found a ha)
    rw [entry]
    exact (partOf_of_projected h).lookup?_eq entry ((get?_of_projected h).mpr ⟨a, ha, entry⟩)
  refine projected_eq_ok_iff.mpr ⟨fun a ha => by rw [again a ha]; exact found a ha, ?_⟩
  rw [(partOf_of_projected h).label, List.filterMap_congr again]
  exact equal

end Record

/-- The texts of the tuples of some records ascend strictly. -/
def TextsAscend (records : List Record) : Prop :=
  records.Pairwise fun r s => Tuple.text r.tuple < Tuple.text s.tuple

namespace TextsAscend

variable {records records' : List Record}

theorem nodup_texts (h : TextsAscend records) :
    (records.map fun r => Tuple.text r.tuple).Nodup :=
  Table.nodup_of_pairwise_lt (List.pairwise_map.mpr h)

/-- Records whose texts ascend are known from their members. -/
theorem eq_of_mem_iff (h : TextsAscend records) (h' : TextsAscend records')
    (same : ∀ r, r ∈ records ↔ r ∈ records') : records = records' := by
  have permuted : records.Perm records' :=
    (List.perm_ext_iff_of_nodup h.nodup_texts.of_map h'.nodup_texts.of_map).mpr same
  refine permuted.eq_of_pairwise ?_ h h'
  intro r s _ _ less greater
  exact (String.lt_irrefl _ (String.lt_trans less greater)).elim

end TextsAscend

/-- A group has a record. -/
theorem exists_mem_of_mem_group {entries : List (String × Record)} {key : String}
    {values : List Record} (h : (key, values) ∈ (Operator.group entries).entries) :
    ∃ r, r ∈ values := by
  have used : key ∈ (Operator.group entries).keys := List.mem_map.mpr ⟨_, h, rfl⟩
  rw [Operator.group, mem_keys_foldl_fileUnder] at used
  obtain ⟨⟨_, r⟩, filed, rfl⟩ := List.mem_map.mp (used.resolve_left (by simp))
  exact ⟨r, (mem_entries_group h).mpr filed⟩

namespace Operator

variable {attributes : List Attribute} {records made : List Record}

/-- The texts of the records that a projection makes are the keys of a shuffle. -/
theorem exists_keys_of_run_project (h : (Operator.project attributes).run records = .ok made) :
    ∃ groups : Table (List Record), made.map (fun r => Tuple.text r.tuple) = groups.keys := by
  obtain ⟨mapped, all, rest⟩ := run_eq_ok_iff.mp h
  have reduced : ((group mapped.flatten).entries.mapM fun (key, values) =>
      (Operator.project attributes).reduce key values) =
        .ok ((group mapped.flatten).entries.map fun e => e.2.take 1) :=
    mapM_eq_ok_map fun _ _ => rfl
  simp only [reduces, if_true, reduced, Except.map, Except.ok.injEq] at rest
  have one : ∀ e ∈ (group mapped.flatten).entries,
      (e.2.take 1).map (fun r => Tuple.text r.tuple) = [e.1] := by
    rintro ⟨key, values⟩ member
    obtain ⟨r, hr⟩ := exists_mem_of_mem_group member
    obtain ⟨first, others, rfl⟩ := List.exists_cons_of_ne_nil (List.ne_nil_of_mem hr)
    obtain ⟨s, -, entries, map, filed⟩ := (mem_flatten_mapped all).mp
      ((mem_entries_group member).mp (List.mem_cons_self ..))
    obtain ⟨cut, -, rfl⟩ := map_project_eq_ok_iff.mp map
    simp only [List.mem_singleton, Prod.mk.injEq] at filed
    simp [filed]
  refine ⟨group mapped.flatten, ?_⟩
  rw [← rest, List.map_flatten, List.map_map, ← List.flatMap_def, Table.keys, List.map_eq_flatMap]
  exact List.flatMap_congr one

theorem textsAscend_of_run_project (h : (Operator.project attributes).run records = .ok made) :
    TextsAscend made := by
  obtain ⟨groups, keys⟩ := exists_keys_of_run_project h
  refine List.pairwise_map.mp ?_
  rw [keys]
  exact groups.keys_pairwise

/-- Records that are their own projections, no two of them with one text, are all that is made of
them. -/
theorem mem_run_project_of_fixed (h : (Operator.project attributes).run records = .ok made)
    (fixed : ∀ r ∈ records, r.projected attributes = .ok r)
    (distinct : (records.map fun r => Tuple.text r.tuple).Nodup) (r : Record) :
    r ∈ made ↔ r ∈ records := by
  have inside : ∀ s ∈ made, s ∈ records := by
    intro s hs
    obtain ⟨source, member, projected⟩ := exists_of_mem_run_project h hs
    rw [fixed source member, Except.ok.injEq] at projected
    exact projected ▸ member
  refine ⟨inside r, fun hr => ?_⟩
  obtain ⟨s, hs, text⟩ := exists_mem_run_project h hr (fixed r hr)
  rwa [← List.inj_on_of_nodup_map distinct (inside s hs) hr text]

/-- A projection makes records whose texts ascend strictly, and makes the same list of them again. -/
theorem run_project_again (h : (Operator.project attributes).run records = .ok made) :
    TextsAscend made ∧ (Operator.project attributes).run made = .ok made := by
  have ascend := textsAscend_of_run_project h
  have fixed : ∀ r ∈ made, r.projected attributes = .ok r := by
    intro r hr
    obtain ⟨s, -, projected⟩ := exists_of_mem_run_project h hr
    exact Record.projected_projected projected
  obtain ⟨again, ran⟩ : ∃ again, (Operator.project attributes).run made = .ok again := by
    apply exists_run
    · intro r hr
      exact ⟨_, map_project_eq_ok_iff.mpr ⟨r, fixed r hr, rfl⟩⟩
    · intro key values _
      exact ⟨values.take 1, rfl⟩
  have same := mem_run_project_of_fixed ran fixed ascend.nodup_texts
  refine ⟨ascend, ?_⟩
  rw [ran, (textsAscend_of_run_project ran).eq_of_mem_iff ascend same]

/-- A name is found under the label in two records and by its ending in the third, where leaving
out a column makes it no less certain; two tuples become one, and the order changes. -/
theorem run_project_again_neighbours :
    let attributes : List Attribute := [.bare "age", .bare "name", .bare "age"]
    let records : List Record := [
      ⟨"Y", .ofList [("Y.name", .text "Amy"), ("X.name", .text "Bea"), ("Y.age", .int 7)]⟩,
      ⟨"X", .ofList [("X.name", .text "Bea"), ("Y.name", .text "Amy"), ("Y.age", .int 9)]⟩,
      ⟨"X,Y", .ofList [("X.name", .text "Bea"), ("Y.age", .int 9), ("Y.town", .null)]⟩]
    let made : List Record := [
      ⟨"X", .ofList [("X.name", .text "Bea"), ("Y.age", .int 9)]⟩,
      ⟨"Y", .ofList [("Y.age", .int 7), ("Y.name", .text "Amy")]⟩]
    (Operator.project attributes).run records = .ok made ∧
      TextsAscend made ∧ (Operator.project attributes).run made = .ok made := by
  intro attributes records made
  have ran : (Operator.project attributes).run records = .ok made := by decide +kernel
  exact ⟨ran, run_project_again ran⟩

end Operator

end StagedAlgebra
