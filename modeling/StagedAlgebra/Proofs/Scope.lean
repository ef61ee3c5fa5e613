import StagedAlgebra.Dictionary
import StagedAlgebra.Proofs.Names
import StagedAlgebra.Proofs.Reference

/-!
# Plans in scope

A dictionary fixes the keys that the records of a plan have before any record is read. `heading`
collects them, and the *header* of a plan is a record with its label, these keys and no values. A
plan is in scope if every attribute that it mentions is found in the header of the input it is
asked of.

The conditions on plans are conditions on each operator of a plan, gathered by `Everywhere`. A plan
in scope whose renamings keep keys apart can be evaluated over every database that conforms to the
dictionary, and all its records have the shape of its header (`exists_evaluate`).
-/

namespace StagedAlgebra

/-- The names of the attributes that a dictionary declares for a relation. -/
def Dictionary.names (d : Dictionary) (relation : String) : List String :=
  ((d.attributes? relation).map Table.keys).getD []

/-- The records of every declared relation carry its label and exactly its attributes. -/
def Database.ConformsTo (db : Database) (d : Dictionary) : Prop :=
  ∀ relation ∈ d.relations.keys, ∀ r ∈ db.records relation, r.label = relation ∧
    r.tuple.keys.Perm ((d.names relation).map (attributeKey relation))

instance (db : Database) (d : Dictionary) : Decidable (db.ConformsTo d) :=
  inferInstanceAs (Decidable (∀ _ ∈ _, ∀ _ ∈ _, _ ∧ _))

namespace Plan

/-- The keys of the records of a plan, without values. -/
def heading (d : Dictionary) : Plan → Tuple
  | .scan relation =>
    Table.ofList ((d.names relation).map fun name => (attributeKey relation name, .null))
  | .select _ input => input.heading d
  | .project attributes input =>
    Table.ofList (attributes.filterMap (Record.lookup? ⟨input.label, input.heading d⟩))
  | .rename newLabel input =>
    Table.ofList ((input.heading d).entries.map fun e => (rekey newLabel e.1, e.2))
  | .cross left right | .join left _ right => (left.heading d).union (right.heading d)

/-- A record with the label and the keys of the records of a plan. -/
def header (d : Dictionary) (p : Plan) : Record :=
  ⟨p.label, p.heading d⟩

/-- The records of a plan have a value for an attribute. -/
def Finds (d : Dictionary) (p : Plan) (a : Attribute) : Prop :=
  ((p.header d).lookup? a).isSome = true

/-- A property of operators holds throughout a plan. -/
def Everywhere (P : Plan → Prop) : Plan → Prop
  | .scan relation => P (.scan relation)
  | .select c input => P (.select c input) ∧ input.Everywhere P
  | .project attributes input => P (.project attributes input) ∧ input.Everywhere P
  | .rename newLabel input => P (.rename newLabel input) ∧ input.Everywhere P
  | .cross left right => P (.cross left right) ∧ left.Everywhere P ∧ right.Everywhere P
  | .join left c right => P (.join left c right) ∧ left.Everywhere P ∧ right.Everywhere P

/-- What an operator mentions is declared, or found in its input. -/
def ScopedAt (d : Dictionary) : Plan → Prop
  | .scan relation => relation ∈ d.relations.keys
  | .select c input => c.IsPredicate ∧ ∀ a ∈ c.attributes, input.Finds d a
  | .project attributes input => ∀ a ∈ attributes, input.Finds d a
  | .rename .. | .cross .. => True
  | .join left c right => c.IsPredicate ∧ ∀ a ∈ c.attributes, (cross left right).Finds d a

/-- The two sides of a pairing have no leaf label in common. -/
def ApartAt : Plan → Prop
  | .cross left right | .join left _ right => left.labels.Disjoint right.labels
  | _ => True

/-- A renaming gives no two keys of its input one key. -/
def RekeysAt (d : Dictionary) : Plan → Prop
  | .rename newLabel input => ((input.heading d).keys.map (rekey newLabel)).Nodup
  | _ => True

theorem Everywhere.root {P : Plan → Prop} {p : Plan} (h : p.Everywhere P) : P p := by
  cases p with
  | scan _ => exact h
  | select | project | rename | cross | join => exact h.1

theorem Everywhere.imp {P Q : Plan → Prop} (hPQ : ∀ q, P q → Q q) {p : Plan}
    (h : p.Everywhere P) : p.Everywhere Q := by
  induction p with
  | scan _ => exact hPQ _ h
  | select _ _ ih => exact ⟨hPQ _ h.1, ih h.2⟩
  | project _ _ ih => exact ⟨hPQ _ h.1, ih h.2⟩
  | rename _ _ ih => exact ⟨hPQ _ h.1, ih h.2⟩
  | cross _ _ ihl ihr => exact ⟨hPQ _ h.1, ihl h.2.1, ihr h.2.2⟩
  | join _ _ _ ihl ihr => exact ⟨hPQ _ h.1, ihl h.2.1, ihr h.2.2⟩

/-- What holds throughout a plan holds throughout each part of it. -/
theorem Everywhere.everywhere {P : Plan → Prop} {p : Plan} (h : p.Everywhere P) :
    p.Everywhere (Everywhere P) := by
  induction p with
  | scan _ => exact h
  | select _ _ ih | project _ _ ih | rename _ _ ih => exact ⟨h, ih h.2⟩
  | cross _ _ ihl ihr | join _ _ _ ihl ihr => exact ⟨h, ihl h.2.1, ihr h.2.2⟩

theorem Everywhere.and {P Q : Plan → Prop} {p : Plan} (hP : p.Everywhere P)
    (hQ : p.Everywhere Q) : p.Everywhere fun q => P q ∧ Q q := by
  induction p with
  | scan _ => exact ⟨hP, hQ⟩
  | select _ _ ih => exact ⟨⟨hP.1, hQ.1⟩, ih hP.2 hQ.2⟩
  | project _ _ ih => exact ⟨⟨hP.1, hQ.1⟩, ih hP.2 hQ.2⟩
  | rename _ _ ih => exact ⟨⟨hP.1, hQ.1⟩, ih hP.2 hQ.2⟩
  | cross _ _ ihl ihr => exact ⟨⟨hP.1, hQ.1⟩, ihl hP.2.1 hQ.2.1, ihr hP.2.2 hQ.2.2⟩
  | join _ _ _ ihl ihr => exact ⟨⟨hP.1, hQ.1⟩, ihl hP.2.1 hQ.2.1, ihr hP.2.2 hQ.2.2⟩

section Decidable

instance (d : Dictionary) (p : Plan) (a : Attribute) : Decidable (p.Finds d a) :=
  inferInstanceAs (Decidable (_ = true))

instance decidableEverywhere {P : Plan → Prop} [DecidablePred P] :
    (p : Plan) → Decidable (p.Everywhere P)
  | .scan _ => inferInstanceAs (Decidable (P _))
  | .select _ input | .project _ input | .rename _ input =>
    have := decidableEverywhere (P := P) input
    inferInstanceAs (Decidable (P _ ∧ input.Everywhere P))
  | .cross left right | .join left _ right =>
    have := decidableEverywhere (P := P) left
    have := decidableEverywhere (P := P) right
    inferInstanceAs (Decidable (P _ ∧ left.Everywhere P ∧ right.Everywhere P))

instance (d : Dictionary) : DecidablePred (ScopedAt d)
  | .scan relation => inferInstanceAs (Decidable (relation ∈ d.relations.keys))
  | .select c input =>
    inferInstanceAs (Decidable (c.IsPredicate ∧ ∀ a ∈ c.attributes, input.Finds d a))
  | .project attributes input => inferInstanceAs (Decidable (∀ a ∈ attributes, input.Finds d a))
  | .rename .. | .cross .. => inferInstanceAs (Decidable True)
  | .join left c right =>
    inferInstanceAs (Decidable (c.IsPredicate ∧ ∀ a ∈ c.attributes, (cross left right).Finds d a))

instance : DecidablePred ApartAt
  | .cross left right | .join left _ right =>
    inferInstanceAs (Decidable (∀ label ∈ left.labels, label ∉ right.labels))
  | .scan _ | .select .. | .project .. | .rename .. => inferInstanceAs (Decidable True)

instance (d : Dictionary) : DecidablePred (RekeysAt d)
  | .rename newLabel input =>
    inferInstanceAs (Decidable ((input.heading d).keys.map (rekey newLabel)).Nodup)
  | .scan _ | .select .. | .project .. | .cross .. | .join .. => inferInstanceAs (Decidable True)

end Decidable

end Plan

section Shapes

variable {r s l h : Record}

theorem Record.SameShape.projected (hshape : r.SameShape s) (attributes : List Attribute) :
    Record.SameShape ⟨r.label, Table.ofList (attributes.filterMap r.lookup?)⟩
      ⟨s.label, Table.ofList (attributes.filterMap s.lookup?)⟩ := by
  refine ⟨hshape.1, Table.keys_eq_iff.2 fun key => ?_⟩
  simp only [Table.mem_keys_ofList, List.map_filterMap]
  have hkeys : (fun a => (r.lookup? a).map (·.1)) = fun a => (s.lookup? a).map (·.1) :=
    funext hshape.map_fst_lookup?
  rw [hkeys]

theorem Record.SameShape.renamed (hshape : r.SameShape s) (newLabel : String) :
    Record.SameShape
      ⟨newLabel, Table.ofList (r.tuple.entries.map fun e => (rekey newLabel e.1, e.2))⟩
      ⟨newLabel, Table.ofList (s.tuple.entries.map fun e => (rekey newLabel e.1, e.2))⟩ := by
  have hkeys : ∀ t : Tuple, (t.entries.map fun e => (rekey newLabel e.1, e.2)).map (·.1) =
      t.keys.map (rekey newLabel) := fun t => by
    simp [Table.keys, Function.comp_def]
  refine ⟨rfl, Table.keys_eq_iff.2 fun key => ?_⟩
  rw [Table.mem_keys_ofList, Table.mem_keys_ofList, hkeys, hkeys, hshape.2]

theorem Record.SameShape.paired (hleft : l.SameShape h) (hright : r.SameShape s)
    (label : String) :
    Record.SameShape ⟨label, l.tuple.union r.tuple⟩ ⟨label, h.tuple.union s.tuple⟩ := by
  refine ⟨rfl, Table.keys_eq_iff.2 fun key => ?_⟩
  rw [Table.mem_keys_union, Table.mem_keys_union, hleft.2, hright.2]

theorem mem_of_mem_dropRepeated {records : List Record} {seen : List String}
    (hmem : r ∈ dropRepeated seen records) : r ∈ records := by
  induction records generalizing seen with
  | nil => simp [dropRepeated] at hmem
  | cons head rest ih =>
      simp only [dropRepeated] at hmem
      split at hmem
      · exact List.mem_cons_of_mem _ (ih hmem)
      · rcases List.mem_cons.1 hmem with rfl | hrest
        · exact List.mem_cons_self ..
        · exact List.mem_cons_of_mem _ (ih hrest)

end Shapes

namespace Plan

variable {d : Dictionary} {db : Database}

theorem sameShape_scan (hdb : db.ConformsTo d) {relation : String}
    (hdeclared : relation ∈ d.relations.keys) {r : Record} (hr : r ∈ db.records relation) :
    r.SameShape ((scan relation).header d) := by
  obtain ⟨hlabel, hkeys⟩ := hdb relation hdeclared r hr
  refine ⟨hlabel, Table.keys_eq_iff.2 fun key => ?_⟩
  rw [hkeys.mem_iff]
  simp [header, heading]

/-- A condition in scope can be evaluated in every record of the input's shape. -/
theorem holdsIn_of_finds {p : Plan} {c : Condition} {records : List Record} (hc : c.IsPredicate)
    (hfinds : ∀ a ∈ c.attributes, p.Finds d a) (hrecords : ∀ r ∈ records, r.SameShape (p.header d)) :
    ∀ r ∈ records, c.holdsIn r = .ok (c.holds r) := by
  intro r hr
  refine Condition.holdsIn_eq_holds hc fun a ha => ?_
  rw [(hrecords r hr).isSome_lookup? a]
  exact hfinds a ha

theorem evaluate_select {c : Condition} {input : Plan} {records : List Record}
    (heval : input.evaluate db = .ok records) (hshape : ∀ r ∈ records, r.SameShape (input.header d))
    (hscope : (select c input).ScopedAt d) :
    (select c input).evaluate db = .ok (records.filter c.holds) := by
  have hkeep := Condition.keep_eq_filter (holdsIn_of_finds hscope.1 hscope.2 hshape)
  simp only [evaluate, heval, Except.bind, hkeep]

theorem evaluate_project {attributes : List Attribute} {input : Plan} {records : List Record}
    (heval : input.evaluate db = .ok records) (hshape : ∀ r ∈ records, r.SameShape (input.header d))
    (hscope : (project attributes input).ScopedAt d) :
    (project attributes input).evaluate db =
      .ok (dropRepeated [] (records.map fun r =>
        ⟨r.label, Table.ofList (attributes.filterMap r.lookup?)⟩)) := by
  have hproject : ∀ r ∈ records, r.projected attributes =
      .ok ⟨r.label, Table.ofList (attributes.filterMap r.lookup?)⟩ := by
    intro r hr
    refine projected_eq_ok fun a ha => ?_
    rw [(hshape r hr).isSome_lookup? a]
    exact hscope a ha
  simp only [evaluate, heval, Except.bind, mapM_eq_ok_map hproject, Except.map]

theorem evaluate_rename {newLabel : String} {input : Plan} {records : List Record}
    (heval : input.evaluate db = .ok records) (hshape : ∀ r ∈ records, r.SameShape (input.header d))
    (hrekey : (rename newLabel input).RekeysAt d) :
    (rename newLabel input).evaluate db =
      .ok (records.map fun r =>
        ⟨newLabel, Table.ofList (r.tuple.entries.map fun e => (rekey newLabel e.1, e.2))⟩) := by
  have hrename : ∀ r ∈ records, r.renamed newLabel =
      .ok ⟨newLabel, Table.ofList (r.tuple.entries.map fun e => (rekey newLabel e.1, e.2))⟩ := by
    intro r hr
    refine renamed_eq_ok ?_
    rw [(hshape r hr).2]
    exact hrekey
  simp only [evaluate, heval, Except.bind, mapM_eq_ok_map hrename]

theorem evaluate_cross {left right : Plan} {ls rs : List Record}
    (hls : left.evaluate db = .ok ls) (hrs : right.evaluate db = .ok rs) :
    (cross left right).evaluate db = .ok (allPairs (pairLabel left.label right.label) ls rs) := by
  simp only [evaluate, hls, hrs, Except.bind, Except.map]

theorem sameShape_allPairs {left right : Plan} {ls rs : List Record}
    (hlshape : ∀ r ∈ ls, r.SameShape (left.header d))
    (hrshape : ∀ r ∈ rs, r.SameShape (right.header d)) :
    ∀ r ∈ allPairs (pairLabel left.label right.label) ls rs,
      r.SameShape ((cross left right).header d) := by
  intro r hr
  obtain ⟨a, ha, b, hb, rfl⟩ := mem_allPairs.1 hr
  exact (hlshape a ha).paired (hrshape b hb) _

theorem evaluate_join {left right : Plan} {c : Condition} {ls rs : List Record}
    (hls : left.evaluate db = .ok ls) (hrs : right.evaluate db = .ok rs)
    (hlshape : ∀ r ∈ ls, r.SameShape (left.header d))
    (hrshape : ∀ r ∈ rs, r.SameShape (right.header d))
    (hscope : (join left c right).ScopedAt d) :
    (join left c right).evaluate db =
      .ok ((allPairs (pairLabel left.label right.label) ls rs).filter c.holds) := by
  have hpairs := sameShape_allPairs hlshape hrshape
  have hkeep := Condition.keep_eq_filter (holdsIn_of_finds hscope.1 hscope.2 hpairs)
  simp only [evaluate, hls, hrs, Except.bind, hkeep]

/-- A plan in scope can be evaluated, and its records have the shape of its header. -/
theorem exists_evaluate (hdb : db.ConformsTo d) {p : Plan} (hscope : p.Everywhere (ScopedAt d))
    (hrekey : p.Everywhere (RekeysAt d)) :
    ∃ records, p.evaluate db = .ok records ∧ ∀ r ∈ records, r.SameShape (p.header d) := by
  induction p with
  | scan relation => exact ⟨_, rfl, fun r hr => sameShape_scan hdb hscope hr⟩
  | select c input ih =>
      obtain ⟨records, heval, hshape⟩ := ih hscope.2 hrekey.2
      refine ⟨_, evaluate_select heval hshape hscope.1, fun r hr => ?_⟩
      exact hshape r (List.mem_filter.1 hr).1
  | project attributes input ih =>
      obtain ⟨records, heval, hshape⟩ := ih hscope.2 hrekey.2
      refine ⟨_, evaluate_project heval hshape hscope.1, fun r hr => ?_⟩
      obtain ⟨s, hs, rfl⟩ := List.mem_map.1 (mem_of_mem_dropRepeated hr)
      exact (hshape s hs).projected attributes
  | rename newLabel input ih =>
      obtain ⟨records, heval, hshape⟩ := ih hscope.2 hrekey.2
      refine ⟨_, evaluate_rename heval hshape hrekey.1, fun r hr => ?_⟩
      obtain ⟨s, hs, rfl⟩ := List.mem_map.1 hr
      exact (hshape s hs).renamed newLabel
  | cross left right ihl ihr =>
      obtain ⟨ls, hls, hlshape⟩ := ihl hscope.2.1 hrekey.2.1
      obtain ⟨rs, hrs, hrshape⟩ := ihr hscope.2.2 hrekey.2.2
      exact ⟨_, evaluate_cross hls hrs, sameShape_allPairs hlshape hrshape⟩
  | join left c right ihl ihr =>
      obtain ⟨ls, hls, hlshape⟩ := ihl hscope.2.1 hrekey.2.1
      obtain ⟨rs, hrs, hrshape⟩ := ihr hscope.2.2 hrekey.2.2
      refine ⟨_, evaluate_join hls hrs hlshape hrshape hscope.1, fun r hr => ?_⟩
      exact sameShape_allPairs hlshape hrshape r (List.mem_filter.1 hr).1

end Plan

end StagedAlgebra
