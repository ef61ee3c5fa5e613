import StagedAlgebra.Proofs.Origins

/-!
# What a condition reads of a pair

A condition above a pairing may concern one of its sides only. It then holds in a pair exactly if
it holds in the record of that side. Which side a condition concerns is found out before a run by
resolving its attributes; `label_of_resolve` says that this agrees with where the attributes are
found in the records.
-/

namespace StagedAlgebra

theorem keyEndsIn_attributeKey_self (label name : String) :
    keyEndsIn name (attributeKey label name) = true := by
  simp only [keyEndsIn, Bool.or_eq_true, List.isSuffixOf_iff_suffix, toList_attributeKey]
  exact Or.inr (List.suffix_append _ _)

namespace Record

variable {r s l : Record} {a : Attribute}

theorem entry?_eq_none (h : attributeKey r.label a.name ∉ r.tuple.keys) :
    r.entry? (attributeKey r.label a.name) = none := by
  simp [ entry?, Table.get?_eq_none_iff.2 h]

theorem exists_entry?_of_mem {key : String} (h : key ∈ r.tuple.keys) :
    ∃ v, r.entry? key = some (key, v) := by
  obtain ⟨v, hv⟩ := Table.mem_keys_iff_exists.1 h
  exact ⟨v, by simp [ entry?, hv]⟩

theorem fst_of_entry? {key : String} {e : String × Scalar} (h : r.entry? key = some e) :
    e.1 = key := by
  obtain ⟨v, _, rfl⟩ := Option.map_eq_some_iff.1 h
  rfl

theorem keys_filter_of_entryEndingIn? {name : String} {e : String × Scalar}
    (h : r.entryEndingIn? name = some e) : r.tuple.keys.filter (keyEndsIn name) = [e.1] := by
  have hfst := r.map_fst_entryEndingIn? name
  rw [h, Option.map_some] at hfst
  split at hfst
  · rename_i key hkey
    rw [hkey, Option.some.inj hfst]
  · simp at hfst

theorem keyEndsIn_of_entryEndingIn? {name : String} {e : String × Scalar}
    (h : r.entryEndingIn? name = some e) : keyEndsIn name e.1 = true := by
  have hmem : e.1 ∈ r.tuple.keys.filter (keyEndsIn name) := by
    rw [keys_filter_of_entryEndingIn? h]
    exact List.mem_singleton_self _
  exact (List.mem_filter.1 hmem).2

theorem exists_entryEndingIn? {name key : String}
    (h : r.tuple.keys.filter (keyEndsIn name) = [key]) :
    ∃ v, r.entryEndingIn? name = some (key, v) := by
  have hfst := r.map_fst_entryEndingIn? name
  rw [h] at hfst
  obtain ⟨e, he, hkey⟩ := Option.map_eq_some_iff.1 hfst
  exact ⟨e.2, by rw [he, ← hkey]⟩

/-- If no key stands under the label of a record, a record with some of its keys finds an
attribute under the same key, provided that it has this key. -/
theorem lookup?_of_subset (hlabel : ∀ name, attributeKey r.label name ∉ r.tuple.keys)
    (hsub : ∀ key ∈ s.tuple.keys, key ∈ r.tuple.keys) {e : String × Scalar}
    (h : r.lookup? a = some e) (hkey : e.1 ∈ s.tuple.keys) :
    ∃ v, s.lookup? a = some (e.1, v) := by
  simp only [lookup?, entry?_eq_none (hlabel a.name)] at h ⊢
  cases hq : a.qualifiedKey? with
  | some key =>
      simp only [hq, Option.or_none] at h ⊢
      obtain rfl := fst_of_entry? h
      obtain ⟨v, hv⟩ := exists_entry?_of_mem hkey
      exact ⟨v, by simp [hv]⟩
  | none =>
      simp only [hq, Option.none_or] at h ⊢
      have hall := keys_filter_of_entryEndingIn? h
      have honly : ∀ key ∈ s.tuple.keys, keyEndsIn a.name key = true → key = e.1 := by
        intro key hmem hends
        have hin : key ∈ r.tuple.keys.filter (keyEndsIn a.name) :=
          List.mem_filter.2 ⟨hsub key hmem, hends⟩
        simpa [hall] using hin
      have hends := keyEndsIn_of_entryEndingIn? h
      by_cases hmem : attributeKey s.label a.name ∈ s.tuple.keys
      · have heq := honly _ hmem (keyEndsIn_attributeKey_self _ _)
        obtain ⟨v, hv⟩ := exists_entry?_of_mem hmem
        exact ⟨v, by rw [hv, heq]; rfl⟩
      · have hfilter : s.tuple.keys.filter (keyEndsIn a.name) = [e.1] := by
          refine eq_singleton_of_nodup ((Table.keys_nodup _).filter _)
            (List.mem_filter.2 ⟨hkey, hends⟩) ?_
          intro key hin
          exact honly key (List.mem_filter.1 hin).1 (List.mem_filter.1 hin).2
        obtain ⟨v, hv⟩ := exists_entryEndingIn? hfilter
        exact ⟨v, by rw [ entry?_eq_none hmem, hv]; rfl⟩

end Record

namespace Condition

variable {l r : Record} {c : Condition} {label : String}

/-- A condition that reads keys of the left only holds in a pair as it does in the left record. -/
theorem holds_pair_left (hlabel : ∀ name, attributeKey label name ∉ (l.tuple.union r.tuple).keys)
    (hreads : ∀ a ∈ c.attributes, ∃ e, Record.lookup? ⟨label, l.tuple.union r.tuple⟩ a = some e ∧
      e.1 ∈ l.tuple.keys ∧ e.1 ∉ r.tuple.keys) :
    c.holds ⟨label, l.tuple.union r.tuple⟩ = c.holds l := by
  have heq : c.holdsIn ⟨label, l.tuple.union r.tuple⟩ = c.holdsIn l := by
    refine holdsIn_congr fun a ha => ?_
    obtain ⟨e, he, hleft, hright⟩ := hreads a ha
    obtain ⟨v, hv⟩ := Record.lookup?_of_subset hlabel
      (fun key hkey => Table.mem_keys_union.2 (Or.inl hkey)) he hleft
    refine ⟨e, _, he, hv, ?_⟩
    have hpair := Record.get?_of_lookup? he
    have hone := Record.get?_of_lookup? hv
    rw [Table.get?_union, Table.get?_eq_none_iff.2 hright, Option.none_or, hone] at hpair
    exact (Option.some.inj hpair).symm
  simp only [holds, heq]

/-- A condition that reads keys of the right only holds in a pair as it does in the right
record. -/
theorem holds_pair_right (hlabel : ∀ name, attributeKey label name ∉ (l.tuple.union r.tuple).keys)
    (hreads : ∀ a ∈ c.attributes, ∃ e, Record.lookup? ⟨label, l.tuple.union r.tuple⟩ a = some e ∧
      e.1 ∈ r.tuple.keys) :
    c.holds ⟨label, l.tuple.union r.tuple⟩ = c.holds r := by
  have heq : c.holdsIn ⟨label, l.tuple.union r.tuple⟩ = c.holdsIn r := by
    refine holdsIn_congr fun a ha => ?_
    obtain ⟨e, he, hright⟩ := hreads a ha
    obtain ⟨v, hv⟩ := Record.lookup?_of_subset hlabel
      (fun key hkey => Table.mem_keys_union.2 (Or.inr hkey)) he hright
    refine ⟨e, _, he, hv, ?_⟩
    have hpair := Record.get?_of_lookup? he
    have hone := Record.get?_of_lookup? hv
    rw [Table.get?_union, hone, Option.some_or] at hpair
    exact (Option.some.inj hpair).symm
  simp only [holds, heq]

end Condition

section Resolving

variable {scope : List LeafSource} {d : Dictionary}

@[simp] theorem mem_ascendingSet {texts : List String} {text : String} :
    text ∈ ascendingSet texts ↔ text ∈ texts := by
  simp [ascendingSet]

/-- A list of attributes is resolved if each of them is, to all their labels. -/
theorem Resolution.ofAttributes_cons_eq_resolved {a : Attribute} {rest : List Attribute}
    {labels : List String} (h : ofAttributes scope d (a :: rest) = .resolved labels) :
    ∃ own more, a.resolve scope d = .resolved own ∧ ofAttributes scope d rest = .resolved more ∧
      labels = own ++ more := by
  simp only [ofAttributes] at h
  split at h
  · rename_i own first
    split at h
    · rename_i more others
      exact ⟨own, more, first, others, (Resolution.resolved.inj h).symm⟩
    · rename_i failed
      exact absurd h (failed labels)
  · rename_i failed
    exact absurd h (failed labels)

/-- A condition is resolved if its attributes are. -/
theorem Condition.resolve_eq_resolved {c : Condition} {labels : List String}
    (h : c.resolve scope d = .resolved labels) :
    ∃ found, Resolution.ofAttributes scope d c.attributes = .resolved found ∧
      labels = ascendingSet found := by
  unfold Condition.resolve at h
  split at h
  · rename_i found resolved
    exact ⟨found, resolved, (Resolution.resolved.inj h).symm⟩
  · rename_i failed
    exact absurd h (failed labels)

theorem Resolution.resolve_of_ofAttributes {attributes : List Attribute} {labels : List String}
    (h : ofAttributes scope d attributes = .resolved labels) :
    ∀ a ∈ attributes, ∃ own, a.resolve scope d = .resolved own ∧ ∀ label ∈ own, label ∈ labels := by
  induction attributes generalizing labels with
  | nil => simp
  | cons a rest ih =>
      obtain ⟨own, more, ha, hrest, rfl⟩ := ofAttributes_cons_eq_resolved h
      intro b hb
      rcases List.mem_cons.1 hb with rfl | hb
      · exact ⟨own, ha, fun label hlabel => List.mem_append_left _ hlabel⟩
      · obtain ⟨own', hown, hsub⟩ := ih hrest b hb
        exact ⟨own', hown, fun label hlabel => List.mem_append_right _ (hsub label hlabel)⟩

theorem Condition.resolve_attribute {c : Condition} {labels : List String}
    (h : c.resolve scope d = .resolved labels) :
    ∀ a ∈ c.attributes, ∃ own, a.resolve scope d = .resolved own ∧ ∀ label ∈ own, label ∈ labels := by
  obtain ⟨found, hall, rfl⟩ := resolve_eq_resolved h
  intro a ha
  obtain ⟨own, hown, hsub⟩ := Resolution.resolve_of_ofAttributes hall a ha
  exact ⟨own, hown, fun label hlabel => mem_ascendingSet.2 (hsub label hlabel)⟩

/-- A bare name is resolved to the only leaf of the only relation that declares it. -/
theorem Attribute.resolve_bare {a : Attribute} {labels : List String} (ha : a.relation = none)
    (h : a.resolve scope d = .resolved labels) :
    ∃ owner leaf, d.owners a.name = [owner] ∧ leavesOf scope owner = [leaf] ∧
      labels = [leaf.label] := by
  simp only [resolve, ha] at h
  split at h
  · simp at h
  · rename_i owner howner
    split at h
    · simp at h
    · rename_i leaf hleaf
      exact ⟨owner, leaf, howner, hleaf, (Resolution.resolved.inj h).symm⟩
    · simp at h
  · simp at h

/-- The leaf of a bare name is the only one in scope whose relation declares the name. -/
theorem Attribute.exists_leaf_of_resolve (hnames : d.AttributesDotless) {a : Attribute}
    {labels : List String} (ha : a.relation = none) (h : a.resolve scope d = .resolved labels) :
    '.' ∉ a.name.toList ∧ ∃ own ∈ scope, labels = [own.label] ∧ ∀ leaf ∈ scope, ∀ relation,
      leaf.base = some relation → a.name ∈ d.names relation → leaf = own := by
  obtain ⟨owner, own, howner, hleaves, hlabels⟩ := resolve_bare ha h
  have hdeclares (relation : String) : a.name ∈ d.names relation ↔ relation = owner := by
    rw [← Dictionary.mem_owners_iff, howner, List.mem_singleton]
  have hbehind (leaf : LeafSource) : leaf ∈ scope ∧ leaf.base = some owner ↔ leaf = own := by
    have hmem : leaf ∈ leavesOf scope owner ↔ leaf = own := by rw [hleaves, List.mem_singleton]
    simpa [leavesOf] using hmem
  refine ⟨?_, own, ((hbehind own).2 rfl).1, hlabels, ?_⟩
  · have hdeclared := (hdeclares owner).2 rfl
    exact hnames owner (Dictionary.mem_keys_of_mem_names hdeclared) _ hdeclared
  · intro leaf hleaf relation hbase hdeclared
    obtain rfl := (hdeclares relation).1 hdeclared
    exact (hbehind leaf).1 ⟨hleaf, hbase⟩

theorem Attribute.resolve_qualified {a : Attribute} {labels : List String} {relation : String}
    (ha : a.relation = some relation) (h : a.resolve scope d = .resolved labels) :
    labels = [relation] := by
  simp only [resolve, ha] at h
  split at h
  · exact (Resolution.resolved.inj h).symm
  · simp at h

/-- In a plan whose label stands before no key, an attribute is resolved to the label of the key
under which it is found. -/
theorem Plan.Regular.label_of_resolve {p : Plan} (hd : d.RelationsPlain)
    (hnames : d.AttributesDotless) (h : p.Regular d)
    (hlabel : ∀ name, attributeKey p.label name ∉ (p.heading d).keys) {a : Attribute}
    {e : String × Scalar} {labels : List String} (hfind : (p.header d).lookup? a = some e)
    (hres : a.resolve p.leaves d = .resolved labels) :
    ∃ label ∈ labels, ∃ name, e.1 = attributeKey label name := by
  have hkey : e.1 ∈ (p.heading d).keys :=
    Table.mem_keys_iff_exists.2 ⟨e.2, Record.get?_of_lookup? hfind⟩
  have hunder : Record.entry? (p.header d) (attributeKey (p.header d).label a.name) = none :=
    Record.entry?_eq_none (hlabel a.name)
  simp only [Record.lookup?, hunder] at hfind
  cases hrel : a.relation with
  | some relation =>
      have hq : a.qualifiedKey? = some (attributeKey relation a.name) := by
        simp [Attribute.qualifiedKey?, hrel]
      simp only [hq, Option.or_none] at hfind
      have hlabels := Attribute.resolve_qualified hrel hres
      exact ⟨relation, by simp [hlabels], a.name, Record.fst_of_entry? hfind⟩
  | none =>
      have hq : a.qualifiedKey? = none := by simp [Attribute.qualifiedKey?, hrel]
      simp only [hq, Option.none_or] at hfind
      obtain ⟨hdotless, leaf, _, rfl, hunique⟩ :=
        Attribute.exists_leaf_of_resolve hnames hrel hres
      obtain ⟨own, hown, relation, name, hbase, hname, heq⟩ := h.exists_leaf_of_mem_heading hd hkey
      have hends := Record.keyEndsIn_of_entryEndingIn? hfind
      rw [heq, keyEndsIn_attributeKey
        (hnames relation (Dictionary.mem_keys_of_mem_names hname) _ hname) hdotless] at hends
      -- The relation behind the key declares the name, so the key belongs to the leaf.
      obtain rfl := hunique own hown relation hbase (hends ▸ hname)
      exact ⟨own.label, by simp, name, heq⟩

end Resolving

end StagedAlgebra
