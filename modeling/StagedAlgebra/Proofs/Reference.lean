import StagedAlgebra.Operator
import StagedAlgebra.Proofs.Outcomes
import StagedAlgebra.Proofs.Shapes

/-!
# The meaning of plans

`Plan.evaluate` gives a plan its meaning over a database, without stages and shuffles. Every
operator works on the list of records of its input in order: a selection keeps records, a
projection keeps the first record of each tuple, a cross product pairs the records of the left
with those of the right, and a join is a cross product of which a condition keeps records.

An attribute that is not found, a condition that cannot be evaluated and a renaming that gives two
values one key are failures.
-/

namespace StagedAlgebra

/-- The records of relations. -/
abbrev Database := Table (List Record)

/-- The records of a relation; one that is not there has none. -/
def Database.records (db : Database) (relation : String) : List Record :=
  (db.get? relation).getD []

/-- The records in which a condition holds, in order. -/
def Condition.keep (c : Condition) : List Record → Except OperatorFault (List Record)
  | [] => .ok []
  | r :: rest =>
    match c.holdsIn r with
    | .error fault => .error fault
    | .ok holds => (c.keep rest).map fun kept => if holds then r :: kept else kept

/-- A record cut down to some attributes. -/
def Record.projected (attributes : List Attribute) (r : Record) : Except OperatorFault Record :=
  (projectEntries r .empty attributes).map fun t => ⟨r.label, t⟩

/-- A record under another label. -/
def Record.renamed (newLabel : String) (r : Record) : Except OperatorFault Record :=
  (renameEntries r.label newLabel .empty r.tuple.entries).map fun t => ⟨newLabel, t⟩

/-- Every record of the left with every record of the right, under a label. -/
def allPairs (label : String) (left right : List Record) : List Record :=
  left.flatMap fun l => right.map fun r => ⟨label, l.tuple.union r.tuple⟩

/-- The records of a plan over a database. -/
def Plan.evaluate (db : Database) : Plan → Except OperatorFault (List Record)
  | .scan relation => .ok (db.records relation)
  | .select c input => (input.evaluate db).bind c.keep
  | .project attributes input =>
    (input.evaluate db).bind fun records =>
      (records.mapM (Record.projected attributes)).map (dropRepeated [])
  | .rename newLabel input => (input.evaluate db).bind fun records =>
      records.mapM (Record.renamed newLabel)
  | .cross left right =>
    (left.evaluate db).bind fun ls =>
      (right.evaluate db).map (allPairs (pairLabel left.label right.label) ls)
  | .join left c right =>
    (left.evaluate db).bind fun ls =>
      (right.evaluate db).bind fun rs =>
        c.keep (allPairs (pairLabel left.label right.label) ls rs)

theorem Condition.keep_eq_filter {c : Condition} {records : List Record}
    (h : ∀ r ∈ records, c.holdsIn r = .ok (c.holds r)) :
    c.keep records = .ok (records.filter c.holds) := by
  induction records with
  | nil => rfl
  | cons r rest ih =>
      have hrest := ih fun s hs => h s (List.mem_cons_of_mem _ hs)
      simp only [keep, h r (List.mem_cons_self ..), hrest, Except.map, List.filter_cons]

theorem mem_allPairs {label : String} {left right : List Record} {r : Record} :
    r ∈ allPairs label left right ↔
      ∃ a ∈ left, ∃ b ∈ right, r = ⟨label, a.tuple.union b.tuple⟩ := by
  simp [allPairs, eq_comm]

/-- The entries that some attributes refer to, put into a tuple one by one. -/
theorem projectEntries_eq_ok {r : Record} {attributes : List Attribute}
    (h : ∀ a ∈ attributes, (r.lookup? a).isSome) (done : Tuple) :
    projectEntries r done attributes =
      .ok ((attributes.filterMap r.lookup?).foldl (fun t e => t.insert e.1 e.2) done) := by
  induction attributes generalizing done with
  | nil => rfl
  | cons a rest ih =>
      obtain ⟨e, he⟩ := Option.isSome_iff_exists.1 (h a (List.mem_cons_self ..))
      have hrest := ih fun b hb => h b (List.mem_cons_of_mem _ hb)
      simp only [projectEntries, Record.lookup_eq_ok he, hrest, List.filterMap_cons, he,
        List.foldl_cons]

theorem projected_eq_ok {r : Record} {attributes : List Attribute}
    (h : ∀ a ∈ attributes, (r.lookup? a).isSome) :
    r.projected attributes = .ok ⟨r.label, Table.ofList (attributes.filterMap r.lookup?)⟩ := by
  simp only [Record.projected, projectEntries_eq_ok h, Except.map, Table.ofList]

/-- Entries whose new keys are new and differ from each other are renamed one by one. -/
theorem renameEntries_eq_ok {label newLabel : String} {entries : List (String × Scalar)}
    {done : Tuple} (hnodup : (entries.map fun e => rekey newLabel e.1).Nodup)
    (hnew : ∀ e ∈ entries, rekey newLabel e.1 ∉ done.keys) :
    renameEntries label newLabel done entries =
      .ok (entries.foldl (fun t e => t.insert (rekey newLabel e.1) e.2) done) := by
  induction entries generalizing done with
  | nil => rfl
  | cons e rest ih =>
      obtain ⟨hhead, htail⟩ := List.nodup_cons.1 hnodup
      have hfree : ¬ done.contains (rekey newLabel e.1) = true := fun hc =>
        hnew e (List.mem_cons_self ..) (Table.contains_iff.1 hc)
      have hrest : ∀ f ∈ rest,
          rekey newLabel f.1 ∉ (done.insert (rekey newLabel e.1) e.2).keys := by
        intro f hf hmem
        rcases Table.mem_keys_insert.1 hmem with heq | hold
        · exact hhead (List.mem_map.2 ⟨f, hf, heq⟩)
        · exact hnew f (List.mem_cons_of_mem _ hf) hold
      simp only [renameEntries, hfree, ih htail hrest, List.foldl_cons]
      rfl

theorem renamed_eq_ok {r : Record} {newLabel : String}
    (h : (r.tuple.keys.map (rekey newLabel)).Nodup) :
    r.renamed newLabel =
      .ok ⟨newLabel, Table.ofList (r.tuple.entries.map fun e => (rekey newLabel e.1, e.2))⟩ := by
  have hnodup : (r.tuple.entries.map fun e => rekey newLabel e.1).Nodup := by
    simpa [Table.keys, Function.comp_def] using h
  have hok := @renameEntries_eq_ok r.label newLabel r.tuple.entries .empty hnodup (by simp)
  simp only [Record.renamed, hok, Except.map, Table.ofList, List.foldl_map]

end StagedAlgebra
