import StagedAlgebra.Proofs.DirectExecution
import StagedAlgebra.Proofs.KeyedPairs
import StagedAlgebra.Proofs.Origins

/-!
# Operators implement the relational algebra

Executing a plan operator by operator gives the records that the plan means, as a set. The order
of records and how often one comes are not the same: a join goes by keys and drops repetitions.

## Implementation notes

The records of a plan all flow under its label, and tuples with one text are equal, so comparing
records is comparing texts of tuples. Each operator then has one law that says which records it
makes, and the laws are put together by induction on the plan. For joins the invariant carries
where the values come from: equality and joining forms are known to agree on the values of the
database only.
-/

namespace StagedAlgebra

namespace Operator

variable {op : Operator} {records : List Record}

/-- An operator that maps every record and reduces every group does its work. -/
theorem exists_run (mapped : ∀ r ∈ records, ∃ entries, op.map r = .ok entries)
    (reduced : ∀ key values, (∀ s ∈ values, ∃ r ∈ records, ∃ entries, op.map r = .ok entries ∧
      (key, s) ∈ entries) → ∃ made, op.reduce key values = .ok made) :
    ∃ out, op.run records = .ok out := by
  obtain ⟨all, found⟩ := exists_mapM_eq_ok mapped
  by_cases reduces : op.reduces = true
  · obtain ⟨made, done⟩ : ∃ made, ((group all.flatten).entries.mapM fun (key, values) =>
        op.reduce key values) = .ok made := by
      refine exists_mapM_eq_ok fun ⟨key, values⟩ member => reduced key values fun s hs => ?_
      exact (mem_flatten_mapped found).mp ((mem_entries_group member).mp hs)
    exact ⟨made.flatten, run_eq_ok_iff.mpr ⟨all, found, by simp [reduces, done, Except.map]⟩⟩
  · exact ⟨_, run_eq_ok_iff.mpr ⟨all, found, by rw [if_neg reduces]⟩⟩

theorem run_select {c : Condition} (h : ∀ r ∈ records, c.holdsIn r = .ok (c.holds r)) :
    ∃ out, (Operator.select c).run records = .ok out ∧
      ∀ r, r ∈ out ↔ r ∈ records ∧ c.holds r = true := by
  obtain ⟨out, ran⟩ : ∃ out, (Operator.select c).run records = .ok out := by
    apply exists_run
    · intro r hr
      exact ⟨_, by rw [map, h r hr]; rfl⟩
    · intro key values _
      exact ⟨values, rfl⟩
  refine ⟨out, ran, fun r => ?_⟩
  rw [mem_run_select ran]
  refine and_congr_right fun hr => ?_
  rw [h r hr, Except.ok.injEq]

theorem run_project {attributes : List Attribute} {label : String}
    (labels : ∀ r ∈ records, r.label = label)
    (h : ∀ r ∈ records, ∃ made, r.projected attributes = .ok made) :
    ∃ out, (Operator.project attributes).run records = .ok out ∧
      ∀ r, r ∈ out ↔ ∃ s ∈ records, s.projected attributes = .ok r := by
  obtain ⟨out, ran⟩ : ∃ out, (Operator.project attributes).run records = .ok out := by
    apply exists_run
    · intro r hr
      obtain ⟨made, projected⟩ := h r hr
      exact ⟨_, map_project_eq_ok_iff.mpr ⟨made, projected, rfl⟩⟩
    · intro key values _
      exact ⟨values.take 1, rfl⟩
  have keeps {s made : Record} (hs : s ∈ records) (projected : s.projected attributes = .ok made) :
      made.label = label := by
    obtain ⟨t, -, rfl⟩ := map_eq_ok_iff.mp projected
    exact labels s hs
  refine ⟨out, ran, fun r => ⟨fun hr => exists_of_mem_run_project ran hr, ?_⟩⟩
  rintro ⟨s, hs, projected⟩
  obtain ⟨r', hr', text⟩ := exists_mem_run_project ran hs projected
  obtain ⟨s', hs', projected'⟩ := exists_of_mem_run_project ran hr'
  rwa [← Record.eq_of_text ((keeps hs' projected').trans (keeps hs projected).symm) text]

theorem run_rename {newLabel : String}
    (h : ∀ r ∈ records, ∃ made, r.renamed newLabel = .ok made) :
    ∃ out, (Operator.rename newLabel).run records = .ok out ∧
      ∀ r, r ∈ out ↔ ∃ s ∈ records, s.renamed newLabel = .ok r := by
  obtain ⟨out, ran⟩ : ∃ out, (Operator.rename newLabel).run records = .ok out := by
    apply exists_run
    · intro r hr
      obtain ⟨made, renamed⟩ := h r hr
      obtain ⟨t, equal, -⟩ := map_eq_ok_iff.mp renamed
      exact ⟨_, by rw [map, equal]; rfl⟩
    · intro key values _
      exact ⟨values, rfl⟩
  exact ⟨out, ran, fun r => mem_run_rename ran⟩

end Operator

/-- The records of two sides are such that joining them by key is joining them by a condition. -/
structure KeyJoin.Suits (j : KeyJoin) (c : Condition) (ls rs : List Record) : Prop where
  /-- The two sides flow under different labels. -/
  apart : j.leftLabel ≠ j.rightLabel
  left_label : ∀ l ∈ ls, l.label = j.leftLabel
  right_label : ∀ s ∈ rs, s.label = j.rightLabel
  /-- Every record can be filed, or is left out. -/
  files : ∀ r ∈ ls ++ rs, ∃ entries, j.file r = .ok entries
  /-- Records are filed under one key exactly if the condition holds in their pair. -/
  files_iff_holds : ∀ l ∈ ls, ∀ s ∈ rs,
    (∃ key, j.Files l key ∧ j.Files s key) ↔ c.holds (j.merge l s) = true

namespace KeyJoin

variable {j : KeyJoin} {c : Condition} {ls rs : List Record}

theorem Suits.mem_left (h : j.Suits c ls rs) {r : Record} (hr : r ∈ ls ++ rs)
    (label : r.label = j.leftLabel) : r ∈ ls :=
  (List.mem_append.mp hr).resolve_right fun hr => h.apart (label.symm.trans (h.right_label r hr))

theorem Suits.mem_right (h : j.Suits c ls rs) {r : Record} (hr : r ∈ ls ++ rs)
    (label : r.label = j.rightLabel) : r ∈ rs :=
  (List.mem_append.mp hr).resolve_left fun hr => h.apart ((h.left_label r hr).symm.trans label)

/-- A condition that equates keys of two sides without a common key suits their records. -/
theorem suits_of_equates {left right : List String} (equates : c.Equates left right)
    (made : ofCondition c j.leftLabel j.rightLabel = .ok j) (apart : j.leftLabel ≠ j.rightLabel)
    (disjoint : left.Disjoint right) {values : List Scalar} (keyed : Scalar.Keyed values)
    (isLeft : ∀ l ∈ ls, l.label = j.leftLabel ∧ l.tuple.keys = left ∧
      ∀ v ∈ l.tuple.values, v ∈ values)
    (isRight : ∀ s ∈ rs, s.label = j.rightLabel ∧ s.tuple.keys = right ∧
      ∀ v ∈ s.tuple.values, v ∈ values) : j.Suits c ls rs where
  apart := apart
  left_label l hl := (isLeft l hl).1
  right_label s hs := (isRight s hs).1
  files r hr := by
    refine exists_file equates made ?_
    rcases List.mem_append.mp hr with hr | hr
    · exact .inl (isLeft r hr).2.1
    · exact .inr (isRight r hr).2.1
  files_iff_holds l hl s hs := by
    obtain ⟨-, leftKeys, leftValues⟩ := isLeft l hl
    obtain ⟨-, rightKeys, rightValues⟩ := isRight s hs
    refine exists_files_iff_holds made (by rwa [leftKeys, rightKeys])
      (by rwa [leftKeys, rightKeys]) fun v hv w hw => keyed v ?_ w ?_
    · exact (List.mem_append.mp hv).elim (leftValues v) (rightValues v)
    · exact (List.mem_append.mp hw).elim (leftValues w) (rightValues w)

end KeyJoin

namespace Operator

variable {j : KeyJoin} {c : Condition} {ls rs : List Record}

theorem exists_run_join (h : j.Suits c ls rs) :
    ∃ out, (Operator.join j).run (ls ++ rs) = .ok out := by
  apply exists_run h.files
  intro key members source
  have labels : ∀ s ∈ members, s.label = j.leftLabel ∨ s.label = j.rightLabel := by
    intro s hs
    obtain ⟨r, hr, entries, equal, inside⟩ := source s hs
    obtain ⟨rfl, -⟩ := KeyJoin.mem_file_iff.mp ⟨entries, equal, inside⟩
    exact (List.mem_append.mp hr).imp (h.left_label s) (h.right_label s)
  obtain ⟨both, sides⟩ := @KeyJoin.exists_sides j key members labels
  exact ⟨_, by rw [reduce, KeyJoin.pair, sides]; rfl⟩

/-- A join makes the pairs in which the condition holds. -/
theorem run_join (h : j.Suits c ls rs) : ∃ out, (Operator.join j).run (ls ++ rs) = .ok out ∧
    ∀ r, r ∈ out ↔ ∃ l ∈ ls, ∃ s ∈ rs, r = j.merge l s ∧ c.holds r = true := by
  obtain ⟨out, ran⟩ := exists_run_join h
  refine ⟨out, ran, ?_⟩
  intro r
  constructor
  · intro hr
    obtain ⟨l, hl, s, hs, leftIs, rightIs, key, rfl⟩ := exists_of_mem_run_join ran hr
    have left := h.mem_left hl leftIs
    have right := h.mem_right hs rightIs
    exact ⟨l, left, s, right, rfl, (h.files_iff_holds l left s right).mp key⟩
  · rintro ⟨l, hl, s, hs, rfl, holds⟩
    obtain ⟨key, leftKey, rightKey⟩ := (h.files_iff_holds l hl s hs).mpr holds
    obtain ⟨l', hl', s', hs', member, leftIs, rightIs, leftText, rightText⟩ :=
      exists_mem_run_join ran h.apart (List.mem_append_left _ hl) (List.mem_append_right _ hs)
        (h.left_label l hl) (h.right_label s hs) leftKey rightKey
    obtain rfl := Record.eq_of_text (leftIs.trans (h.left_label l hl).symm) leftText
    obtain rfl := Record.eq_of_text (rightIs.trans (h.right_label s hs).symm) rightText
    exact member

end Operator

/-- The scalars of a database. -/
def Database.scalars (db : Database) : List Scalar :=
  db.entries.flatMap fun e => e.2.flatMap fun r => Tuple.values r.tuple

theorem Database.mem_scalars {db : Database} {relation : String} {r : Record}
    (hr : r ∈ db.records relation) {v : Scalar} (hv : v ∈ r.tuple.values) : v ∈ db.scalars := by
  unfold Database.records at hr
  cases stored : db.get? relation with
  | none => simp [stored] at hr
  | some records =>
      rw [stored, Option.getD_some] at hr
      refine List.mem_flatMap.mpr ⟨(relation, records), Table.get?_eq_some_iff.mp stored, ?_⟩
      exact List.mem_flatMap.mpr ⟨r, hr, hv⟩

theorem Tuple.mem_of_mem_values_ofList {entries : List (String × Scalar)} {v : Scalar}
    (h : v ∈ Tuple.values (Table.ofList entries)) : ∃ key, (key, v) ∈ entries := by
  obtain ⟨key, found⟩ := Tuple.mem_values_iff.mp h
  rw [Table.get?_ofList] at found
  exact ⟨key, List.mem_reverse.mp (Table.mem_of_find? found)⟩

theorem Tuple.mem_values_union {t u : Tuple} {v : Scalar}
    (h : v ∈ Tuple.values (Table.union t u)) : v ∈ t.values ∨ v ∈ u.values := by
  obtain ⟨key, found⟩ := Tuple.mem_values_iff.mp h
  rw [Table.get?_union, Option.or_eq_some_iff] at found
  rcases found with found | ⟨-, found⟩
  · exact .inr (Tuple.mem_values_iff.mpr ⟨key, found⟩)
  · exact .inl (Tuple.mem_values_iff.mpr ⟨key, found⟩)

namespace Plan

variable {d : Dictionary} {db : Database} {p : Plan}

/-- What an operator needs to be executed as it is evaluated. -/
def OperableAt (d : Dictionary) : Plan → Prop
  | .scan relation => relation ∈ d.relations.keys
  | .select c input => c.IsPredicate ∧ ∀ a ∈ c.attributes, input.Finds d a
  | .project attributes input => ∀ a ∈ attributes, input.Finds d a
  | .rename newLabel input =>
    PlainName newLabel ∧ ((input.heading d).keys.map (rekey newLabel)).Nodup
  | .join left c right => left.labels.Disjoint right.labels ∧
    c.Equates (left.heading d).keys (right.heading d).keys
  | .cross .. => False

instance (d : Dictionary) : DecidablePred (OperableAt d)
  | .scan relation => inferInstanceAs (Decidable (relation ∈ d.relations.keys))
  | .select c input =>
    inferInstanceAs (Decidable (c.IsPredicate ∧ ∀ a ∈ c.attributes, input.Finds d a))
  | .project attributes input => inferInstanceAs (Decidable (∀ a ∈ attributes, input.Finds d a))
  | .rename newLabel input => inferInstanceAs (Decidable
      (PlainName newLabel ∧ ((input.heading d).keys.map (rekey newLabel)).Nodup))
  | .join left c right => inferInstanceAs (Decidable
      ((∀ label ∈ left.labels, label ∉ right.labels) ∧
        c.Equates (left.heading d).keys (right.heading d).keys))
  | .cross .. => inferInstanceAs (Decidable False)

theorem finds_cross_of_key {left right : Plan} {a : Attribute} {key : String}
    (qualified : a.qualifiedKey? = some key)
    (member : key ∈ (left.heading d).keys ∨ key ∈ (right.heading d).keys) :
    (cross left right).Finds d a := by
  obtain ⟨v, found⟩ := Table.mem_keys_iff_exists.mp (Table.mem_keys_union.mpr member)
  unfold Finds header heading Record.lookup? Record.entry?
  simp [qualified, found]

theorem finds_of_equates {left right : Plan} {c : Condition}
    (h : c.Equates (left.heading d).keys (right.heading d).keys) :
    ∀ a ∈ c.attributes, (cross left right).Finds d a := by
  have conjuncts : ∀ conjunct ∈ c.conjuncts, ∀ a ∈ conjunct.attributes,
      (cross left right).Finds d a := by
    intro conjunct member a ha
    obtain ⟨a₁, a₂, x, y, rfl, first, second, sides⟩ := h.cases member
    have either : a = a₁ ∨ a = a₂ := by simpa [Condition.attributes] using ha
    rcases either with rfl | rfl
    · exact finds_cross_of_key first (sides.imp (·.1) (·.1))
    · exact finds_cross_of_key second (sides.symm.imp (·.2) (·.2))
  clear h
  induction c with
  | attr _ | literal _ | equal _ _ _ _ => exact conjuncts _ (by simp [Condition.conjuncts])
  | both first second ih ih' =>
      intro a ha
      rw [Condition.attributes, List.mem_append] at ha
      rcases ha with ha | ha
      · exact ih (fun conjunct member => conjuncts conjunct (by simp [member])) a ha
      · exact ih' (fun conjunct member => conjuncts conjunct (by simp [member])) a ha

theorem OperableAt.scopedAt {q : Plan} (h : q.OperableAt d) : q.ScopedAt d := by
  cases q with
  | scan _ | select _ _ | project _ _ => exact h
  | rename _ _ | cross _ _ => trivial
  | join left c right => exact ⟨h.2.isPredicate, finds_of_equates h.2⟩

theorem OperableAt.plainLabelAt {q : Plan} (h : q.OperableAt d) : q.PlainLabelAt := by
  cases q with
  | rename _ _ => exact h.1
  | _ => trivial

/-- Records of one label without repetitions are the same records. -/
theorem mem_dropRepeated_iff {records : List Record} {label : String}
    (labels : ∀ r ∈ records, r.label = label) {r : Record} :
    r ∈ dropRepeated [] records ↔ r ∈ records := by
  refine ⟨mem_of_mem_dropRepeated, fun hr => ?_⟩
  obtain ⟨s, hs, text⟩ := exists_mem_dropRepeated hr
  have same := (labels s (mem_of_mem_dropRepeated hs)).trans (labels r hr).symm
  rwa [← Record.eq_of_text same text]

/-- Where each of the same records succeeds, what comes out is what they are mapped to. -/
theorem exists_eq_ok_iff_mem_map {ds es : List Record} (same : ∀ r, r ∈ ds ↔ r ∈ es)
    {work : Record → Except OperatorFault Record} {result : Record → Record}
    (h : ∀ s ∈ ds, work s = .ok (result s)) {r : Record} :
    (∃ s ∈ ds, work s = .ok r) ↔ r ∈ es.map result := by
  rw [List.mem_map]
  constructor
  · rintro ⟨s, hs, equal⟩
    rw [h s hs, Except.ok.injEq] at equal
    exact ⟨s, (same s).mp hs, equal⟩
  · rintro ⟨s, hs, rfl⟩
    exact ⟨s, (same s).mpr hs, h s ((same s).mpr hs)⟩

/-- Executing a plan gives the records `ds` and its meaning are the records `es`, and these are
the same ones. -/
structure Agrees (d : Dictionary) (db : Database)
    (read : String → Except StorageFault (List Record)) (p : Plan) (ds es : List Record) :
    Prop where
  direct_eq : p.direct read = .ok ds
  evaluate_eq : p.evaluate db = .ok es
  mem_iff : ∀ r, r ∈ ds ↔ r ∈ es
  /-- The records have the label and the keys of the plan. -/
  shape : ∀ r ∈ es, r.SameShape (p.header d)
  /-- The values are those of the database. -/
  values : ∀ r ∈ es, ∀ v ∈ r.tuple.values, v ∈ db.scalars

namespace Agrees

variable {read : String → Except StorageFault (List Record)} {input left right : Plan}
variable {ds es ls rs es' : List Record}

theorem scan (hdb : db.ConformsTo d) {relation : String} (declared : relation ∈ d.relations.keys)
    (hread : read relation = .ok (db.records relation)) :
    (Plan.scan relation).Agrees d db read (db.records relation) (db.records relation) where
  direct_eq := by
    rw [direct, hread]
    rfl
  evaluate_eq := rfl
  mem_iff _ := Iff.rfl
  shape _ hr := sameShape_scan hdb declared hr
  values _ hr _ hv := Database.mem_scalars hr hv

theorem select {c : Condition} (h : input.Agrees d db read ds es)
    (operable : (Plan.select c input).OperableAt d) :
    ∃ out made, (Plan.select c input).Agrees d db read out made := by
  have decided := holdsIn_of_finds operable.1 operable.2 h.shape
  obtain ⟨out, ran, members⟩ :
      ∃ out, (Operator.select c).run ds = .ok out ∧ ∀ r, r ∈ out ↔ r ∈ ds ∧ c.holds r = true :=
    Operator.run_select fun r hr => decided r ((h.mem_iff r).mp hr)
  refine ⟨out, es.filter c.holds, ?_, evaluate_select h.evaluate_eq h.shape operable, fun r => ?_,
    fun r hr => h.shape r (List.mem_filter.mp hr).1,
    fun r hr => h.values r (List.mem_filter.mp hr).1⟩
  · rw [direct, h.direct_eq]
    exact mapError_eq_ok_iff.mpr ran
  · rw [members, h.mem_iff, List.mem_filter]

theorem project {attributes : List Attribute} (h : input.Agrees d db read ds es)
    (operable : (Plan.project attributes input).OperableAt d) :
    ∃ out made, (Plan.project attributes input).Agrees d db read out made := by
  have projected : ∀ r ∈ ds, r.projected attributes =
      .ok ⟨r.label, Table.ofList (attributes.filterMap r.lookup?)⟩ := by
    intro r hr
    apply projected_eq_ok
    intro a ha
    rw [(h.shape r ((h.mem_iff r).mp hr)).isSome_lookup? a]
    exact operable a ha
  have labels : ∀ r ∈ ds, r.label = input.label := fun r hr =>
    (h.shape r ((h.mem_iff r).mp hr)).1
  obtain ⟨out, ran, members⟩ := Operator.run_project labels fun r hr => ⟨_, projected r hr⟩
  have oneLabel : ∀ r ∈ es.map fun r : Record =>
      (⟨r.label, Table.ofList (attributes.filterMap r.lookup?)⟩ : Record),
      r.label = input.label := by
    intro r hr
    obtain ⟨s, hs, rfl⟩ := List.mem_map.mp hr
    exact (h.shape s hs).1
  refine ⟨out, _, ?_, evaluate_project h.evaluate_eq h.shape operable, fun r => ?_, fun r hr => ?_,
    fun r hr v hv => ?_⟩
  · rw [direct, h.direct_eq]
    exact mapError_eq_ok_iff.mpr ran
  · rw [members, mem_dropRepeated_iff oneLabel]
    exact exists_eq_ok_iff_mem_map h.mem_iff projected
  · obtain ⟨s, hs, rfl⟩ := List.mem_map.mp (mem_of_mem_dropRepeated hr)
    exact (h.shape s hs).projected attributes
  · obtain ⟨s, hs, rfl⟩ := List.mem_map.mp (mem_of_mem_dropRepeated hr)
    obtain ⟨key, member⟩ := Tuple.mem_of_mem_values_ofList hv
    obtain ⟨a, -, found⟩ := List.mem_filterMap.mp member
    exact h.values s hs v (Tuple.mem_values_iff.mpr ⟨key, Record.get?_of_lookup? found⟩)

theorem rename {newLabel : String} (h : input.Agrees d db read ds es)
    (operable : (Plan.rename newLabel input).OperableAt d) :
    ∃ out made, (Plan.rename newLabel input).Agrees d db read out made := by
  have renamed : ∀ r ∈ ds, r.renamed newLabel =
      .ok ⟨newLabel, Table.ofList (r.tuple.entries.map fun e => (rekey newLabel e.1, e.2))⟩ := by
    intro r hr
    apply renamed_eq_ok
    rw [(h.shape r ((h.mem_iff r).mp hr)).2]
    exact operable.2
  obtain ⟨out, ran, members⟩ := Operator.run_rename fun r hr => ⟨_, renamed r hr⟩
  refine ⟨out, _, ?_, evaluate_rename h.evaluate_eq h.shape operable.2, fun r => ?_,
    fun r hr => ?_, fun r hr v hv => ?_⟩
  · rw [direct, h.direct_eq]
    exact mapError_eq_ok_iff.mpr ran
  · rw [members]
    exact exists_eq_ok_iff_mem_map h.mem_iff renamed
  · obtain ⟨s, hs, rfl⟩ := List.mem_map.mp hr
    exact (h.shape s hs).renamed newLabel
  · obtain ⟨s, hs, rfl⟩ := List.mem_map.mp hr
    obtain ⟨key, member⟩ := Tuple.mem_of_mem_values_ofList hv
    obtain ⟨e, inside, equal⟩ := List.mem_map.mp member
    obtain ⟨-, rfl⟩ := Prod.mk.inj equal
    exact h.values s hs e.2 (List.mem_map.mpr ⟨e, inside, rfl⟩)

/-- The records of the two sides of a join suit its condition. -/
theorem suits {c : Condition} (hl : left.Agrees d db read ls es)
    (hr : right.Agrees d db read rs es') (plain : ∀ label ∈ left.labels, PlainName label)
    (plain' : ∀ label ∈ right.labels, PlainName label) (keyed : Scalar.Keyed db.scalars)
    (operable : (Plan.join left c right).OperableAt d) {j : KeyJoin}
    (made : KeyJoin.ofCondition c left.label right.label = .ok j)
    (leftIs : j.leftLabel = left.label) (rightIs : j.rightLabel = right.label) :
    j.Suits c ls rs := by
  refine KeyJoin.suits_of_equates operable.2 (by rwa [leftIs, rightIs]) ?_
    (heading_disjoint operable.1 plain plain') keyed (fun l member => ?_) fun s member => ?_
  · rw [leftIs, rightIs]
    exact label_ne_of_disjoint operable.1 (fun label member => (plain label member).2)
      fun label member => (plain' label member).2
  · have shape := hl.shape l ((hl.mem_iff l).mp member)
    exact ⟨shape.1.trans leftIs.symm, shape.2, hl.values l ((hl.mem_iff l).mp member)⟩
  · have shape := hr.shape s ((hr.mem_iff s).mp member)
    exact ⟨shape.1.trans rightIs.symm, shape.2, hr.values s ((hr.mem_iff s).mp member)⟩

theorem join {c : Condition} (hl : left.Agrees d db read ls es)
    (hr : right.Agrees d db read rs es') (plain : ∀ label ∈ left.labels, PlainName label)
    (plain' : ∀ label ∈ right.labels, PlainName label) (keyed : Scalar.Keyed db.scalars)
    (operable : (Plan.join left c right).OperableAt d) :
    ∃ out made, (Plan.join left c right).Agrees d db read out made := by
  obtain ⟨j, made, leftIs, rightIs⟩ :=
    KeyJoin.exists_ofCondition operable.2 left.label right.label
  obtain ⟨out, ran, members⟩ :=
    Operator.run_join (suits hl hr plain plain' keyed operable made leftIs rightIs)
  have evaluated := evaluate_join hl.evaluate_eq hr.evaluate_eq hl.shape hr.shape operable.scopedAt
  refine ⟨out, _, ?_, evaluated, fun r => ?_, fun r hr' => ?_, fun r hr' v hv => ?_⟩
  · rw [direct, hl.direct_eq, hr.direct_eq]
    simp only [Except.bind, StageSpec.operate, StageSpec.work, made, Except.map]
    exact mapError_eq_ok_iff.mpr ran
  · rw [members, List.mem_filter, mem_allPairs]
    simp only [hl.mem_iff, hr.mem_iff, KeyJoin.merge, KeyJoin.label, leftIs, rightIs]
    constructor
    · rintro ⟨l, inLeft, s, inRight, equal, holds⟩
      exact ⟨⟨l, inLeft, s, inRight, equal⟩, holds⟩
    · rintro ⟨⟨l, inLeft, s, inRight, equal⟩, holds⟩
      exact ⟨l, inLeft, s, inRight, equal, holds⟩
  · exact sameShape_allPairs hl.shape hr.shape r (List.mem_filter.mp hr').1
  · obtain ⟨l, inLeft, s, inRight, rfl⟩ := mem_allPairs.mp (List.mem_filter.mp hr').1
    rcases Tuple.mem_values_union hv with hv | hv
    · exact hl.values l inLeft v hv
    · exact hr.values s inRight v hv

end Agrees

/-- Every operator keeps execution and meaning together. -/
theorem exists_agrees (hd : d.RelationsPlain) (hdb : db.ConformsTo d)
    (keyed : Scalar.Keyed db.scalars) {read : String → Except StorageFault (List Record)}
    (hread : ∀ relation ∈ d.relations.keys, read relation = .ok (db.records relation))
    (h : p.Everywhere (OperableAt d)) : ∃ ds es, p.Agrees d db read ds es := by
  have plain {q : Plan} (hq : q.Everywhere (OperableAt d)) : ∀ label ∈ q.labels, PlainName label :=
    plainName_of_mem_labels (plainNames_of_scoped hd (hq.imp fun _ => OperableAt.scopedAt)
      (hq.imp fun _ => OperableAt.plainLabelAt))
  induction p with
  | scan relation => exact ⟨_, _, Agrees.scan hdb h (hread relation h)⟩
  | select c input ih =>
      obtain ⟨ds, es, agrees⟩ := ih h.2
      exact agrees.select h.1
  | project attributes input ih =>
      obtain ⟨ds, es, agrees⟩ := ih h.2
      exact agrees.project h.1
  | rename newLabel input ih =>
      obtain ⟨ds, es, agrees⟩ := ih h.2
      exact agrees.rename h.1
  | cross left right => exact h.1.elim
  | join left c right ihl ihr =>
      obtain ⟨ls, es, agrees⟩ := ihl h.2.1
      obtain ⟨rs, es', agrees'⟩ := ihr h.2.2
      exact agrees.join agrees' (plain h.2.1) (plain h.2.2) keyed h.1

/-- Executing a plan operator by operator succeeds, its records flow under the label of the plan,
and they are those that the plan means, as a set. -/
theorem direct_agrees_evaluate (hd : d.RelationsPlain) (hdb : db.ConformsTo d)
    (keyed : Scalar.Keyed db.scalars) {read : String → Except StorageFault (List Record)}
    (hread : ∀ relation ∈ d.relations.keys, read relation = .ok (db.records relation))
    (h : p.Everywhere (OperableAt d)) :
    ∃ ds es, p.direct read = .ok ds ∧ p.evaluate db = .ok es ∧ (∀ r ∈ ds, r.label = p.label) ∧
      (∀ r, r ∈ ds ↔ r ∈ es) ∧
        ∀ text, (∃ r ∈ ds, Tuple.text r.tuple = text) ↔ ∃ r ∈ es, Tuple.text r.tuple = text := by
  obtain ⟨ds, es, agrees⟩ := exists_agrees hd hdb keyed hread h
  refine ⟨ds, es, agrees.direct_eq, agrees.evaluate_eq, fun r hr => ?_, agrees.mem_iff,
    fun text => ?_⟩
  · exact (agrees.shape r ((agrees.mem_iff r).mp hr)).1
  · simp only [agrees.mem_iff]

/-- Persons and offers for an age. -/
def offersDictionary : Dictionary :=
  (Dictionary.empty.declare "Person" [("name", .string), ("age", .integer)]).declare "Offer"
    [("age", .integer), ("pizza", .string)]

/-- The number sixteen as a binary one. -/
def sixteen : Binary64 :=
  ⟨false, 4503599627370496, 1026, by decide⟩

/-- An age is missing, one is written as a binary number, and an offer comes twice. -/
def offersDatabase : Database :=
  Table.ofList
    [("Person", [⟨"Person", Table.ofList [("Person.name", .text "Amy"), ("Person.age", .int 16)]⟩,
      ⟨"Person", Table.ofList [("Person.name", .text "Ben"), ("Person.age", .null)]⟩]),
    ("Offer", [
      ⟨"Offer", Table.ofList [("Offer.age", .float sixteen), ("Offer.pizza", .text "ham")]⟩,
      ⟨"Offer", Table.ofList [("Offer.age", .float sixteen), ("Offer.pizza", .text "ham")]⟩,
      ⟨"Offer", Table.ofList [("Offer.age", .null), ("Offer.pizza", .text "cheese")]⟩])]

/-- What persons are offered: the equality names the right side first. -/
def offersPlan : Plan :=
  .project [.bare "name", .qualified "Offer" "pizza"]
    (.join (.rename "P" (.scan "Person"))
      (.equal (.attr (.qualified "Offer" "age")) (.attr (.qualified "P" "age"))) (.scan "Offer"))

/-- Sixteen meets its binary form, and missing ages meet nothing. -/
theorem direct_agrees_evaluate_offers :
    offersPlan.direct (fun relation => .ok (offersDatabase.records relation)) =
        .ok [⟨"P,Offer", Table.ofList [("P.name", .text "Amy"), ("Offer.pizza", .text "ham")]⟩] ∧
      ∃ ds es, offersPlan.direct (fun relation => .ok (offersDatabase.records relation)) = .ok ds ∧
        offersPlan.evaluate offersDatabase = .ok es ∧ (∀ r ∈ ds, r.label = "P,Offer") ∧
        (∀ r, r ∈ ds ↔ r ∈ es) ∧
          ∀ text, (∃ r ∈ ds, Tuple.text r.tuple = text) ↔ ∃ r ∈ es, Tuple.text r.tuple = text :=
  ⟨by decide +kernel, direct_agrees_evaluate (d := offersDictionary) (by decide) (by decide)
    (by decide +kernel) (fun _ _ => rfl) (by decide)⟩

end Plan

end StagedAlgebra
