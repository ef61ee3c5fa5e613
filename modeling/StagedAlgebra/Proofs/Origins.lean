import Mathlib.Data.List.Nodup
import Mathlib.Data.List.TakeWhile
import StagedAlgebra.Proofs.Scope
import StagedAlgebra.Resolution

/-!
# Where keys come from

Every key of a plan's records is an attribute under the label of a leaf. If renamings stand only
above plans with one base relation, the attribute is moreover one that the dictionary declares for
the relation behind the leaf (`exists_leaf_of_mem_heading`). The two sides of a pairing with leaf
labels apart therefore share no key.

Records of a pair flow under a label that no key has, so an attribute is found there under its own
key or as the only one of its name. Where that key belongs to one side, the side finds the
attribute under the same key (`lookup?_of_subset`), and resolving the attribute beforehand names
the label of the key (`label_of_resolve`).
-/

namespace StagedAlgebra

/-- The relations of a dictionary have plain names. -/
def Dictionary.RelationsPlain (d : Dictionary) : Prop :=
  ∀ relation ∈ d.relations.keys, PlainName relation

/-- No attribute of a dictionary has a dot in its name. -/
def Dictionary.AttributesDotless (d : Dictionary) : Prop :=
  ∀ relation ∈ d.relations.keys, ∀ name ∈ d.names relation, '.' ∉ name.toList

namespace Dictionary

instance (d : Dictionary) : Decidable d.RelationsPlain :=
  inferInstanceAs (Decidable (∀ _ ∈ _, _))

instance (d : Dictionary) : Decidable d.AttributesDotless :=
  inferInstanceAs (Decidable (∀ _ ∈ _, _))

theorem mem_names_iff {d : Dictionary} {relation name : String} :
    name ∈ d.names relation ↔ ∃ t, d.relations.get? relation = some t ∧ name ∈ t.keys := by
  unfold names attributes?
  cases d.relations.get? relation <;> simp

theorem mem_keys_of_mem_names {d : Dictionary} {relation name : String}
    (h : name ∈ d.names relation) : relation ∈ d.relations.keys := by
  obtain ⟨t, ht, _⟩ := mem_names_iff.1 h
  exact Table.mem_keys_iff_exists.2 ⟨t, ht⟩

/-- The owners of an attribute are the relations that declare it. -/
theorem mem_owners_iff {d : Dictionary} {relation name : String} :
    relation ∈ d.owners name ↔ name ∈ d.names relation := by
  simp only [mem_names_iff, owners, List.mem_map, List.mem_filter, Table.contains_iff,
    Table.get?_eq_some_iff]
  constructor
  · rintro ⟨e, ⟨hmem, hname⟩, rfl⟩
    exact ⟨e.2, hmem, hname⟩
  · rintro ⟨t, hmem, hname⟩
    exact ⟨(relation, t), ⟨hmem, hname⟩, rfl⟩

end Dictionary

namespace Plan

/-- A renaming stands above a plan with one base relation. -/
def BasedAt : Plan → Prop
  | .rename _ input => input.base?.isSome = true
  | _ => True

/-- A renaming gives a plain label. -/
def PlainLabelAt : Plan → Prop
  | .rename newLabel _ => PlainName newLabel
  | _ => True

/-- A relation that is read and a label that is given are plain names. -/
def PlainNamesAt : Plan → Prop
  | .scan relation => PlainName relation
  | .rename newLabel _ => PlainName newLabel
  | _ => True

instance : DecidablePred BasedAt
  | .rename _ input => inferInstanceAs (Decidable (input.base?.isSome = true))
  | .scan _ | .select .. | .project .. | .cross .. | .join .. => inferInstanceAs (Decidable True)

instance : DecidablePred PlainLabelAt
  | .rename newLabel _ => inferInstanceAs (Decidable (PlainName newLabel))
  | .scan _ | .select .. | .project .. | .cross .. | .join .. => inferInstanceAs (Decidable True)

instance : DecidablePred PlainNamesAt
  | .scan relation => inferInstanceAs (Decidable (PlainName relation))
  | .rename newLabel _ => inferInstanceAs (Decidable (PlainName newLabel))
  | .select .. | .project .. | .cross .. | .join .. => inferInstanceAs (Decidable True)

variable {d : Dictionary} {p : Plan}

theorem labels_cross (left right : Plan) :
    (cross left right).labels = left.labels ++ right.labels := by
  simp [labels, leaves]

/-- The labels of leaves are plain. -/
theorem plainName_of_mem_labels (h : p.Everywhere PlainNamesAt) :
    ∀ label ∈ p.labels, PlainName label := by
  induction p with
  | scan relation =>
      intro label hlabel
      obtain rfl : label = relation := by simpa [labels, leaves] using hlabel
      exact h
  | select _ _ ih | project _ _ ih => exact ih h.2
  | rename newLabel _ _ =>
      intro label hlabel
      obtain rfl : label = newLabel := by simpa [labels, leaves] using hlabel
      exact h.1
  | cross left right ihl ihr | join left c right ihl ihr =>
      intro label hlabel
      change label ∈ (cross left right).labels at hlabel
      rw [labels_cross, List.mem_append] at hlabel
      rcases hlabel with hlabel | hlabel
      · exact ihl h.2.1 label hlabel
      · exact ihr h.2.2 label hlabel

/-- In a plan in scope only declared relations are read. -/
theorem plainNames_of_scoped (hd : d.RelationsPlain) (hscope : p.Everywhere (ScopedAt d))
    (hplain : p.Everywhere PlainLabelAt) : p.Everywhere PlainNamesAt := by
  refine (hscope.and hplain).imp fun q hq => ?_
  cases q with
  | scan relation => exact hd relation hq.1
  | rename _ _ => exact hq.2
  | select _ _ | project _ _ | cross _ _ | join _ _ _ => trivial

theorem mem_heading_project {attributes : List Attribute} {input : Plan} {key : String}
    (h : key ∈ ((project attributes input).heading d).keys) : key ∈ (input.heading d).keys := by
  simp only [heading, Table.mem_keys_ofList, List.mem_map, List.mem_filterMap] at h
  obtain ⟨e, ⟨a, _, he⟩, rfl⟩ := h
  exact Table.mem_keys_iff_exists.2 ⟨e.2, Record.get?_of_lookup? he⟩

theorem mem_heading_rename {newLabel : String} {input : Plan} {key : String} :
    key ∈ ((rename newLabel input).heading d).keys ↔
      ∃ old ∈ (input.heading d).keys, rekey newLabel old = key := by
  rw [heading, Table.mem_keys_ofList]
  simp [Table.keys]

/-- Every key stands under the label of a leaf. -/
theorem exists_label_of_mem_heading {key : String} (h : key ∈ (p.heading d).keys) :
    ∃ label ∈ p.labels, ∃ name, key = attributeKey label name := by
  induction p generalizing key with
  | scan relation =>
      simp only [heading, Table.mem_keys_ofList, List.map_map, List.mem_map] at h
      obtain ⟨name, _, rfl⟩ := h
      exact ⟨relation, by simp [labels, leaves], name, rfl⟩
  | select _ _ ih => exact ih h
  | project _ _ ih => exact ih (mem_heading_project h)
  | rename newLabel input _ =>
      obtain ⟨old, _, rfl⟩ := mem_heading_rename.1 h
      refine ⟨newLabel, by simp [labels, leaves], ?_⟩
      unfold rekey
      split
      · exact ⟨_, rfl⟩
      · exact ⟨_, rfl⟩
  | cross left right ihl ihr =>
      rcases Table.mem_keys_union.1 h with h | h
      · obtain ⟨label, hlabel, hname⟩ := ihl h
        exact ⟨label, by simp [labels_cross, hlabel], hname⟩
      · obtain ⟨label, hlabel, hname⟩ := ihr h
        exact ⟨label, by simp [labels_cross, hlabel], hname⟩
  | join left c right ihl ihr =>
      change ∃ label ∈ (cross left right).labels, _
      rcases Table.mem_keys_union.1 h with h | h
      · obtain ⟨label, hlabel, hname⟩ := ihl h
        exact ⟨label, by simp [labels_cross, hlabel], hname⟩
      · obtain ⟨label, hlabel, hname⟩ := ihr h
        exact ⟨label, by simp [labels_cross, hlabel], hname⟩

/-- A plan with one base relation has one leaf, and the relation is behind it. -/
theorem leaves_of_base? {relation : String} (h : p.base? = some relation) :
    ∃ label, p.leaves = [⟨label, some relation⟩] := by
  induction p with
  | scan name =>
      obtain rfl : name = relation := by simpa [base?] using h
      exact ⟨name, rfl⟩
  | select _ _ ih => exact ih h
  | project _ _ ih => exact ih h
  | rename newLabel input _ =>
      have hbase : input.base? = some relation := h
      exact ⟨newLabel, by simp [leaves, hbase]⟩
  | cross _ _ _ _ => simp [base?] at h
  | join _ _ _ _ _ => simp [base?] at h

/-- The conditions under which plans are rewritten, at one operator. -/
def RegularAt (d : Dictionary) (p : Plan) : Prop :=
  p.ScopedAt d ∧ p.ApartAt ∧ p.BasedAt ∧ p.PlainLabelAt

/-- The plans that are rewritten: in scope, with the sides of pairings apart, and with plain
renamings of single relations. -/
def Regular (d : Dictionary) (p : Plan) : Prop :=
  p.Everywhere (RegularAt d)

namespace Regular

theorem inScope (h : p.Regular d) : p.Everywhere (ScopedAt d) :=
  h.imp fun _ hq => hq.1

theorem plain (h : p.Regular d) : p.Everywhere PlainLabelAt :=
  h.imp fun _ hq => hq.2.2.2

theorem plainName (h : p.Regular d) (hd : d.RelationsPlain) :
    ∀ label ∈ p.labels, PlainName label :=
  plainName_of_mem_labels (plainNames_of_scoped hd h.inScope h.plain)

/-- Every key is an attribute that is declared for the relation behind a leaf. -/
theorem exists_leaf_of_mem_heading (hd : d.RelationsPlain) (h : p.Regular d) {key : String}
    (hkey : key ∈ (p.heading d).keys) :
    ∃ leaf ∈ p.leaves, ∃ relation name, leaf.base = some relation ∧ name ∈ d.names relation ∧
      key = attributeKey leaf.label name := by
  induction p generalizing key with
  | scan relation =>
      simp only [heading, Table.mem_keys_ofList, List.map_map, List.mem_map] at hkey
      obtain ⟨name, hname, rfl⟩ := hkey
      exact ⟨⟨relation, some relation⟩, by simp [leaves], relation, name, rfl, hname, rfl⟩
  | select _ _ ih => exact ih h.2 hkey
  | project _ _ ih => exact ih h.2 (mem_heading_project hkey)
  | rename newLabel input ih =>
      obtain ⟨old, hold, rfl⟩ := mem_heading_rename.1 hkey
      obtain ⟨leaf, hleaf, relation, name, hbase, hname, rfl⟩ := ih h.2 hold
      -- The input has a single leaf, so its base is that of the leaf of the old key.
      obtain ⟨base, hinput⟩ := Option.isSome_iff_exists.1 h.1.2.2.1
      obtain ⟨label, hleaves⟩ := leaves_of_base? hinput
      obtain rfl : leaf = ⟨label, some base⟩ := by simpa [hleaves] using hleaf
      have hdotless : '.' ∉ label.toList :=
        (plainName h.2 hd label (by simp [labels, hleaves])).1
      refine ⟨⟨newLabel, input.base?⟩, by simp [leaves], relation, name, ?_, hname, ?_⟩
      · rw [← hbase, hinput]
      · exact rekey_attributeKey hdotless newLabel name
  | cross left right ihl ihr =>
      rcases Table.mem_keys_union.1 hkey with hkey | hkey
      · obtain ⟨leaf, hleaf, hrest⟩ := ihl h.2.1 hkey
        exact ⟨leaf, List.mem_append_left _ hleaf, hrest⟩
      · obtain ⟨leaf, hleaf, hrest⟩ := ihr h.2.2 hkey
        exact ⟨leaf, List.mem_append_right _ hleaf, hrest⟩
  | join left c right ihl ihr =>
      rcases Table.mem_keys_union.1 hkey with hkey | hkey
      · obtain ⟨leaf, hleaf, hrest⟩ := ihl h.2.1 hkey
        exact ⟨leaf, List.mem_append_left _ hleaf, hrest⟩
      · obtain ⟨leaf, hleaf, hrest⟩ := ihr h.2.2 hkey
        exact ⟨leaf, List.mem_append_right _ hleaf, hrest⟩

/-- Renaming a plan with one base relation keeps its keys apart. -/
theorem nodup_rekey {newLabel : String} {input : Plan} (hd : d.RelationsPlain)
    (h : (rename newLabel input).Regular d) :
    ((input.heading d).keys.map (rekey newLabel)).Nodup := by
  obtain ⟨base, hbase⟩ := Option.isSome_iff_exists.1 h.1.2.2.1
  obtain ⟨label, hleaves⟩ := leaves_of_base? hbase
  have hdotless : '.' ∉ label.toList := (plainName h.2 hd label (by simp [labels, hleaves])).1
  refine List.Nodup.map_on ?_ (Table.keys_nodup _)
  intro key hkey key' hkey' heq
  obtain ⟨l, hl, name, rfl⟩ := exists_label_of_mem_heading hkey
  obtain ⟨l', hl', name', rfl⟩ := exists_label_of_mem_heading hkey'
  obtain rfl : l = label := by simpa [labels, hleaves] using hl
  obtain rfl : l' = l := by simpa [labels, hleaves] using hl'
  rw [rekey_attributeKey hdotless, rekey_attributeKey hdotless, attributeKey_right_inj] at heq
  rw [heq]

theorem rekeys (hd : d.RelationsPlain) (h : p.Regular d) : p.Everywhere (RekeysAt d) := by
  induction p with
  | scan _ => trivial
  | select _ _ ih => exact ⟨trivial, ih h.2⟩
  | project _ _ ih => exact ⟨trivial, ih h.2⟩
  | rename _ _ ih => exact ⟨nodup_rekey hd h, ih h.2⟩
  | cross _ _ ihl ihr => exact ⟨trivial, ihl h.2.1, ihr h.2.2⟩
  | join _ _ _ ihl ihr => exact ⟨trivial, ihl h.2.1, ihr h.2.2⟩

end Regular

/-- Plans with plain leaf labels apart have no key in common. -/
theorem heading_disjoint {left right : Plan} (hapart : left.labels.Disjoint right.labels)
    (hleft : ∀ label ∈ left.labels, PlainName label)
    (hright : ∀ label ∈ right.labels, PlainName label) :
    (left.heading d).keys.Disjoint (right.heading d).keys := by
  intro key hl hr
  obtain ⟨label, hlabel, name, rfl⟩ := exists_label_of_mem_heading hl
  obtain ⟨label', hlabel', name', heq⟩ := exists_label_of_mem_heading hr
  rw [attributeKey_inj (hleft label hlabel).1 (hright label' hlabel').1] at heq
  exact hapart hlabel (heq.1 ▸ hlabel')

/-- No key of a plan with plain leaf labels stands under the label of a pair. -/
theorem attributeKey_pairLabel_not_mem (hplain : ∀ label ∈ p.labels, PlainName label)
    {left right : String} (hl : '.' ∉ left.toList) (hr : '.' ∉ right.toList) (name : String) :
    attributeKey (pairLabel left right) name ∉ (p.heading d).keys := by
  intro hmem
  obtain ⟨label, hlabel, name', heq⟩ := exists_label_of_mem_heading hmem
  have hdotless : '.' ∉ (pairLabel left right).toList := by simp [pairLabel, hl, hr]
  rw [attributeKey_inj hdotless (hplain label hlabel).1] at heq
  exact not_plainName_pairLabel left right (heq.1 ▸ hplain label hlabel)

/-- Labels of plans have no dot if those of their leaves have none. -/
theorem dotless_label (h : ∀ label ∈ p.labels, PlainName label) : '.' ∉ p.label.toList := by
  induction p with
  | scan relation => exact (h relation (by simp [labels, leaves])).1
  | select _ _ ih => exact ih h
  | project _ _ ih => exact ih h
  | rename newLabel _ _ => exact (h newLabel (by simp [labels, leaves])).1
  | cross left right ihl ihr =>
      have hl := ihl fun label hlabel => h label (by simp [labels_cross, hlabel])
      have hr := ihr fun label hlabel => h label (by simp [labels_cross, hlabel])
      simp [label, pairLabel, hl, hr]
  | join left c right ihl ihr =>
      have hcross : ∀ label ∈ (cross left right).labels, PlainName label := h
      have hl := ihl fun label hlabel => hcross label (by simp [labels_cross, hlabel])
      have hr := ihr fun label hlabel => hcross label (by simp [labels_cross, hlabel])
      simp [label, pairLabel, hl, hr]

/-- The label of a plan starts with the label of a leaf, up to the first comma. -/
theorem exists_takeWhile_label (h : ∀ label ∈ p.labels, ',' ∉ label.toList) :
    ∃ label ∈ p.labels, p.label.toList.takeWhile (· != ',') = label.toList := by
  have alone {label : String} (commaless : ',' ∉ label.toList) :
      label.toList.takeWhile (· != ',') = label.toList := by
    rw [List.takeWhile_eq_self_iff]
    intro c hc
    simp only [bne_iff_ne]
    rintro rfl
    exact commaless hc
  have front (left right : String) : (pairLabel left right).toList.takeWhile (· != ',') =
      left.toList.takeWhile (· != ',') := by
    simp only [pairLabel, String.toList_append, List.append_assoc, List.takeWhile_append]
    split
    · rename_i whole
      rw [(List.takeWhile_prefix _).eq_of_length whole]
      exact List.append_nil _
    · rfl
  induction p with
  | scan relation =>
      have member : relation ∈ (scan relation).labels := by simp [labels, leaves]
      exact ⟨relation, member, alone (h relation member)⟩
  | rename newLabel input _ =>
      have member : newLabel ∈ (rename newLabel input).labels := by simp [labels, leaves]
      exact ⟨newLabel, member, alone (h newLabel member)⟩
  | select _ _ ih | project _ _ ih => exact ih h
  | cross left right ihl _ | join left c right ihl _ =>
      have all : ∀ label ∈ left.labels ++ right.labels, ',' ∉ label.toList := by
        rwa [← labels_cross]
      obtain ⟨label, member, equal⟩ := ihl fun label hl => all label (List.mem_append_left _ hl)
      refine ⟨label, ?_, by rw [Plan.label, front, equal]⟩
      change label ∈ (Plan.cross left right).labels
      rw [labels_cross]
      exact List.mem_append_left _ member

/-- Plans with leaf labels apart, all without commas, flow under different labels. -/
theorem label_ne_of_disjoint {left right : Plan} (apart : left.labels.Disjoint right.labels)
    (hleft : ∀ label ∈ left.labels, ',' ∉ label.toList)
    (hright : ∀ label ∈ right.labels, ',' ∉ label.toList) : left.label ≠ right.label := by
  intro same
  obtain ⟨label, member, front⟩ := exists_takeWhile_label hleft
  obtain ⟨label', member', front'⟩ := exists_takeWhile_label hright
  rw [same, front', String.toList_inj] at front
  exact apart member (front ▸ member')

end Plan

end StagedAlgebra
