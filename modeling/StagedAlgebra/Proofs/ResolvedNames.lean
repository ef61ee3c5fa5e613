import StagedAlgebra.Plan.Selections
import StagedAlgebra.Proofs.Sides

/-!
# Bare names before and during a run

A bare name is resolved before a run to the one leaf behind which the one relation that declares it
stands. During a run it is looked up in a record under the record's label, or else as the only key
that ends in it. Both agree unless a renaming hides several relations: what is below it is no longer
seen by resolving, but its columns are still there under the new label. Where the only column of
that name belongs to such a leaf, resolving names another one (`resolve_agrees_iff`), and a
selection sinks into a side that does not have the column (`resolve_misses_hidden_column`).

## Implementation notes

`Traced` is what evaluation keeps: every key of a record of a plan is made of the label of a leaf
and a name that the dictionary declares for the relation behind it, if there is one. It holds
without any assumption on attributes being found, as it is about the records that come out.
-/

namespace StagedAlgebra

/-- The records of every relation carry its label and exactly the attributes that a dictionary
declares for it. -/
def Database.Follows (db : Database) (d : Dictionary) : Prop :=
  ∀ relation, ∀ r ∈ db.records relation, r.label = relation ∧
    r.tuple.keys.Perm ((d.names relation).map (attributeKey relation))

theorem Database.follows_iff {db : Database} {d : Dictionary} :
    db.Follows d ↔ ∀ relation ∈ Table.keys db, ∀ r ∈ db.records relation, r.label = relation ∧
      r.tuple.keys.Perm ((d.names relation).map (attributeKey relation)) := by
  refine ⟨fun h relation _ => h relation, fun h relation r hr => ?_⟩
  by_cases known : relation ∈ Table.keys db
  · exact h relation known r hr
  · rw [records, Table.get?_eq_none_iff.mpr known] at hr
    cases hr

instance (db : Database) (d : Dictionary) : Decidable (db.Follows d) :=
  decidable_of_iff _ Database.follows_iff.symm

theorem mem_of_mem_keep {c : Condition} {records kept : List Record} (h : c.keep records = .ok kept)
    {r : Record} (hr : r ∈ kept) : r ∈ records := by
  induction records generalizing kept with
  | nil =>
      cases h
      cases hr
  | cons s rest ih =>
      simp only [Condition.keep] at h
      split at h
      · cases h
      · rename_i holds _
        obtain ⟨others, below, rfl⟩ := map_eq_ok_iff.mp h
        have inRest (member : r ∈ others) : r ∈ s :: rest :=
          List.mem_cons_of_mem _ (ih below member)
        cases holds with
        | false => exact inRest hr
        | true =>
            rcases List.mem_cons.mp hr with rfl | member
            · exact List.mem_cons_self ..
            · exact inRest member

theorem Record.mem_keys_of_lookup {r : Record} {a : Attribute} {e : String × Scalar}
    (h : r.lookup a = .ok e) : e.1 ∈ r.tuple.keys := by
  unfold Record.lookup at h
  split at h
  · cases h
    rename_i found
    exact Table.mem_keys_iff_exists.mpr ⟨e.2, Record.get?_of_lookup? found⟩
  · cases h

theorem mem_keys_of_projectEntries {r : Record} {attributes : List Attribute} {done t : Tuple}
    (h : projectEntries r done attributes = .ok t) {key : String} (hkey : key ∈ t.keys) :
    key ∈ done.keys ∨ key ∈ r.tuple.keys := by
  induction attributes generalizing done with
  | nil =>
      cases h
      exact .inl hkey
  | cons a rest ih =>
      simp only [projectEntries] at h
      split at h
      · cases h
      · rename_i found
        rcases ih h with inside | inside
        · rcases Table.mem_keys_insert.mp inside with rfl | inside
          · exact .inr (Record.mem_keys_of_lookup found)
          · exact .inl inside
        · exact .inr inside

theorem mem_keys_of_renameEntries {label newLabel : String} {entries : List (String × Scalar)}
    {done t : Tuple} (h : renameEntries label newLabel done entries = .ok t) {key : String}
    (hkey : key ∈ t.keys) : key ∈ done.keys ∨ ∃ e ∈ entries, rekey newLabel e.1 = key := by
  induction entries generalizing done with
  | nil =>
      cases h
      exact .inl hkey
  | cons e rest ih =>
      simp only [renameEntries] at h
      split at h
      · cases h
      · rcases ih h with inside | ⟨f, hf, equal⟩
        · rcases Table.mem_keys_insert.mp inside with rfl | inside
          · exact .inr ⟨e, List.mem_cons_self .., rfl⟩
          · exact .inl inside
        · exact .inr ⟨f, List.mem_cons_of_mem _ hf, equal⟩

theorem Record.keys_of_projected {r s : Record} {attributes : List Attribute}
    (h : r.projected attributes = .ok s) :
    s.label = r.label ∧ ∀ key ∈ s.tuple.keys, key ∈ r.tuple.keys := by
  obtain ⟨t, made, rfl⟩ := map_eq_ok_iff.mp h
  refine ⟨rfl, fun key hkey => ?_⟩
  rcases mem_keys_of_projectEntries made hkey with empty | inside
  · simp at empty
  · exact inside

theorem Record.keys_of_renamed {r s : Record} {newLabel : String}
    (h : r.renamed newLabel = .ok s) :
    s.label = newLabel ∧ ∀ key ∈ s.tuple.keys, ∃ old ∈ r.tuple.keys, rekey newLabel old = key := by
  obtain ⟨t, made, rfl⟩ := map_eq_ok_iff.mp h
  refine ⟨rfl, fun key hkey => ?_⟩
  rcases mem_keys_of_renameEntries made hkey with empty | ⟨e, he, equal⟩
  · simp at empty
  · exact ⟨e.1, List.mem_map_of_mem he, equal⟩

/-- A key is made of the label of a leaf and a name without a dot, one that is declared for the
relation behind the leaf if there is one. -/
def LeafSource.Holds (d : Dictionary) (leaf : LeafSource) (key : String) : Prop :=
  ∃ name, key = attributeKey leaf.label name ∧ '.' ∉ name.toList ∧
    ∀ relation, leaf.base = some relation → name ∈ d.names relation

/-- A record flows under the label of a plan, and every key of it belongs to a leaf. -/
structure Record.Traced (d : Dictionary) (p : Plan) (r : Record) : Prop where
  /-- The label is that of the plan. -/
  label : r.label = p.label
  /-- Every key belongs to a leaf. -/
  keys : ∀ key ∈ r.tuple.keys, ∃ leaf ∈ p.leaves, leaf.Holds d key

namespace Record.Traced

variable {d : Dictionary} {db : Database} {p left right : Plan} {r s : Record}

theorem scan (dotless : d.AttributesDotless) (follows : db.Follows d) {relation : String}
    (hr : r ∈ db.records relation) : r.Traced d (.scan relation) := by
  obtain ⟨label, keys⟩ := follows relation r hr
  refine ⟨label, fun key hkey => ?_⟩
  obtain ⟨name, declared, rfl⟩ := List.mem_map.mp (keys.mem_iff.mp hkey)
  refine ⟨⟨relation, some relation⟩, List.mem_singleton_self _, name, rfl, ?_, ?_⟩
  · exact dotless relation (Dictionary.mem_keys_of_mem_names declared) name declared
  · rintro _ ⟨⟩
    exact declared

theorem project (h : r.Traced d p) {attributes : List Attribute}
    (projected : r.projected attributes = .ok s) : s.Traced d (.project attributes p) := by
  obtain ⟨label, keys⟩ := keys_of_projected projected
  exact ⟨label.trans h.label, fun key hkey => h.keys key (keys key hkey)⟩

theorem rename (h : r.Traced d p) (plain : p.Everywhere Plan.PlainNamesAt) {newLabel : String}
    (renamed : r.renamed newLabel = .ok s) : s.Traced d (.rename newLabel p) := by
  obtain ⟨label, keys⟩ := keys_of_renamed renamed
  refine ⟨label, fun key hkey => ?_⟩
  obtain ⟨old, hold, rfl⟩ := keys key hkey
  obtain ⟨leaf, hleaf, name, rfl, nameDotless, declared⟩ := h.keys old hold
  have leafDotless : '.' ∉ leaf.label.toList :=
    (Plan.plainName_of_mem_labels plain leaf.label (List.mem_map_of_mem hleaf)).1
  refine ⟨⟨newLabel, p.base?⟩, List.mem_singleton_self _, name,
    rekey_attributeKey leafDotless newLabel name, nameDotless, fun relation based => ?_⟩
  -- Behind one relation there is one leaf, so it is the leaf of the old key.
  obtain ⟨own, single⟩ := Plan.leaves_of_base? based
  obtain rfl : leaf = ⟨own, some relation⟩ := by simpa [single] using hleaf
  exact declared relation rfl

theorem pair (hl : r.Traced d left) (hr : s.Traced d right) :
    Record.Traced d (.cross left right)
      ⟨Plan.pairLabel left.label right.label, r.tuple.union s.tuple⟩ := by
  refine ⟨rfl, fun key hkey => ?_⟩
  rcases Table.mem_keys_union.mp hkey with hkey | hkey
  · obtain ⟨leaf, hleaf, holds⟩ := hl.keys key hkey
    exact ⟨leaf, List.mem_append_left _ hleaf, holds⟩
  · obtain ⟨leaf, hleaf, holds⟩ := hr.keys key hkey
    exact ⟨leaf, List.mem_append_right _ hleaf, holds⟩

theorem allPairs {ls rs : List Record} (hl : ∀ r ∈ ls, r.Traced d left)
    (hr : ∀ r ∈ rs, r.Traced d right) :
    ∀ r ∈ StagedAlgebra.allPairs (Plan.pairLabel left.label right.label) ls rs,
      r.Traced d (.cross left right) := by
  intro r member
  obtain ⟨a, ha, b, hb, rfl⟩ := mem_allPairs.mp member
  exact (hl a ha).pair (hr b hb)

end Record.Traced

namespace Plan

variable {d : Dictionary} {db : Database} {p : Plan} {records : List Record}

/-- Every key of a record that evaluation gives belongs to a leaf of the plan. -/
theorem traced_of_evaluate (dotless : d.AttributesDotless) (follows : db.Follows d)
    (plain : p.Everywhere PlainNamesAt) (evaluated : p.evaluate db = .ok records) :
    ∀ r ∈ records, r.Traced d p := by
  induction p generalizing records with
  | scan relation =>
      cases evaluated
      exact fun r hr => .scan dotless follows hr
  | select c input ih =>
      obtain ⟨below, inner, kept⟩ := bind_eq_ok_iff.mp evaluated
      intro r hr
      have traced := ih plain.2 inner r (mem_of_mem_keep kept hr)
      exact ⟨traced.label, traced.keys⟩
  | project attributes input ih =>
      obtain ⟨below, inner, rest⟩ := bind_eq_ok_iff.mp evaluated
      obtain ⟨projected, all, rfl⟩ := map_eq_ok_iff.mp rest
      intro r hr
      obtain ⟨s, hs, made⟩ := (mem_of_mapM_eq_ok all r).mp (mem_of_mem_dropRepeated hr)
      exact (ih plain.2 inner s hs).project made
  | rename newLabel input ih =>
      obtain ⟨below, inner, all⟩ := bind_eq_ok_iff.mp evaluated
      intro r hr
      obtain ⟨s, hs, made⟩ := (mem_of_mapM_eq_ok all r).mp hr
      exact (ih plain.2 inner s hs).rename plain.2 made
  | cross left right ihl ihr =>
      obtain ⟨ls, inLeft, rest⟩ := bind_eq_ok_iff.mp evaluated
      obtain ⟨rs, inRight, rfl⟩ := map_eq_ok_iff.mp rest
      exact Record.Traced.allPairs (ihl plain.2.1 inLeft) (ihr plain.2.2 inRight)
  | join left c right ihl ihr =>
      obtain ⟨ls, inLeft, rest⟩ := bind_eq_ok_iff.mp evaluated
      obtain ⟨rs, inRight, kept⟩ := bind_eq_ok_iff.mp rest
      intro r hr
      have traced := Record.Traced.allPairs (ihl plain.2.1 inLeft) (ihr plain.2.2 inRight) r
        (mem_of_mem_keep kept hr)
      exact ⟨traced.label, traced.keys⟩

/-- A plan that flows under a plain label has one leaf, with that label. -/
theorem leaves_of_plainName_label (h : PlainName p.label) :
    ∃ base, p.leaves = [⟨p.label, base⟩] := by
  induction p with
  | scan relation => exact ⟨_, rfl⟩
  | select _ _ ih | project _ _ ih => exact ih h
  | rename _ _ _ => exact ⟨_, rfl⟩
  | cross left right _ _ | join left _ right _ _ => exact absurd h (not_plainName_pairLabel _ _)

theorem isSome_base_of_based (h : p.Everywhere BasedAt) : ∀ leaf ∈ p.leaves, leaf.base.isSome := by
  induction p with
  | scan relation =>
      intro leaf hleaf
      obtain rfl := List.mem_singleton.mp hleaf
      rfl
  | select _ _ ih | project _ _ ih => exact ih h.2
  | rename _ _ _ =>
      intro leaf hleaf
      obtain rfl := List.mem_singleton.mp hleaf
      exact h.1
  | cross _ _ ihl ihr | join _ _ _ ihl ihr =>
      intro leaf hleaf
      rcases List.mem_append.mp hleaf with hleaf | hleaf
      · exact ihl h.2.1 leaf hleaf
      · exact ihr h.2.2 leaf hleaf

end Plan

/-- A leaf has a column of some name in a record, and no other of some leaves has. -/
def Record.OnlyColumn (r : Record) (leaves : List LeafSource) (name : String) (leaf : LeafSource) :
    Prop :=
  attributeKey leaf.label name ∈ r.tuple.keys ∧
    ∀ other ∈ leaves, attributeKey other.label name ∈ r.tuple.keys → other.label = leaf.label

instance (r : Record) (leaves : List LeafSource) (name : String) (leaf : LeafSource) :
    Decidable (r.OnlyColumn leaves name leaf) :=
  inferInstanceAs (Decidable (_ ∧ ∀ _ ∈ _, _ → _))

theorem Record.lookup?_bare (r : Record) (name : String) : r.lookup? (.bare name) =
    (r.entry? (attributeKey r.label name)).or (r.entryEndingIn? name) := rfl

namespace Record.Traced

variable {d : Dictionary} {p : Plan} {r : Record} {name : String}

theorem exists_leaf_of_keyEndsIn (h : r.Traced d p) (dotless : '.' ∉ name.toList) {key : String}
    (hkey : key ∈ r.tuple.keys) (ends : keyEndsIn name key = true) :
    ∃ leaf ∈ p.leaves, key = attributeKey leaf.label name ∧
      ∀ relation, leaf.base = some relation → name ∈ d.names relation := by
  obtain ⟨leaf, hleaf, own, rfl, ownDotless, declared⟩ := h.keys key hkey
  obtain rfl := (keyEndsIn_attributeKey ownDotless dotless).mp ends
  exact ⟨leaf, hleaf, rfl, declared⟩

/-- The label of a record stands before a key only if the plan has a single leaf. -/
theorem leaves_of_mem_keys (h : r.Traced d p) (plain : ∀ label ∈ p.labels, PlainName label)
    (hkey : attributeKey r.label name ∈ r.tuple.keys) : ∃ base, p.leaves = [⟨r.label, base⟩] := by
  obtain ⟨leaf, hleaf, own, equal, -⟩ := h.keys _ hkey
  have plainLeaf := plain leaf.label (List.mem_map_of_mem hleaf)
  rw [h.label] at equal ⊢
  rw [attributeKey_inj (Plan.dotless_label plain) plainLeaf.1] at equal
  exact Plan.leaves_of_plainName_label (equal.1 ▸ plainLeaf)

/-- What a bare name refers to is the only column of that name. -/
theorem onlyColumn_of_lookup? (h : r.Traced d p) (plain : ∀ label ∈ p.labels, PlainName label)
    (dotless : '.' ∉ name.toList) {e : String × Scalar} (found : r.lookup? (.bare name) = some e) :
    ∃ leaf ∈ p.leaves, e.1 = attributeKey leaf.label name ∧
      (∀ relation, leaf.base = some relation → name ∈ d.names relation) ∧
        r.OnlyColumn p.leaves name leaf := by
  have member : e.1 ∈ r.tuple.keys :=
    Table.mem_keys_iff_exists.mpr ⟨e.2, Record.get?_of_lookup? found⟩
  rw [Record.lookup?_bare] at found
  have ends : keyEndsIn name e.1 = true := by
    rcases Option.or_eq_some_iff.mp found with under | ⟨-, ending⟩
    · rw [Record.fst_of_entry? under]
      exact keyEndsIn_attributeKey_self _ _
    · exact Record.keyEndsIn_of_entryEndingIn? ending
  obtain ⟨leaf, hleaf, equal, declared⟩ := h.exists_leaf_of_keyEndsIn dotless member ends
  refine ⟨leaf, hleaf, equal, declared, equal ▸ member, fun other hother column => ?_⟩
  rcases Option.or_eq_some_iff.mp found with under | ⟨-, ending⟩
  · -- The record flows under the label of its only leaf.
    obtain ⟨base, single⟩ := h.leaves_of_mem_keys plain (Record.fst_of_entry? under ▸ member)
    rw [single, List.mem_singleton] at hleaf hother
    rw [hleaf, hother]
  · have ending' : attributeKey other.label name ∈ r.tuple.keys.filter (keyEndsIn name) :=
      List.mem_filter.mpr ⟨column, keyEndsIn_attributeKey_self _ _⟩
    rw [Record.keys_filter_of_entryEndingIn? ending, List.mem_singleton, equal,
      attributeKey_inj (plain _ (List.mem_map_of_mem hother)).1
        (plain _ (List.mem_map_of_mem hleaf)).1] at ending'
    exact ending'.1

/-- The only column of a name is what the bare name refers to. -/
theorem lookup?_of_onlyColumn (h : r.Traced d p) (plain : ∀ label ∈ p.labels, PlainName label)
    (dotless : '.' ∉ name.toList) {leaf : LeafSource} (column : r.OnlyColumn p.leaves name leaf) :
    ∃ v, r.lookup? (.bare name) = some (attributeKey leaf.label name, v) := by
  rw [Record.lookup?_bare]
  by_cases hkey : attributeKey r.label name ∈ r.tuple.keys
  · obtain ⟨base, single⟩ := h.leaves_of_mem_keys plain hkey
    have same : r.label = leaf.label := column.2 ⟨r.label, base⟩ (by simp [single]) hkey
    obtain ⟨v, under⟩ := Record.exists_entry?_of_mem hkey
    exact ⟨v, by rw [under, Option.some_or, same]⟩
  · have ending : r.tuple.keys.filter (keyEndsIn name) = [attributeKey leaf.label name] := by
      refine eq_singleton_of_nodup ((Table.keys_nodup _).filter _)
        (List.mem_filter.mpr ⟨column.1, keyEndsIn_attributeKey_self _ _⟩) fun key hin => ?_
      obtain ⟨member, ends⟩ := List.mem_filter.mp hin
      obtain ⟨other, hother, rfl, -⟩ := h.exists_leaf_of_keyEndsIn dotless member ends
      rw [column.2 other hother member]
    obtain ⟨v, found⟩ := Record.exists_entryEndingIn? ending
    have under : r.entry? (attributeKey r.label name) = none :=
      Record.entry?_eq_none (a := .bare name) hkey
    exact ⟨v, by rw [under, Option.none_or, found]⟩

end Record.Traced

namespace Plan

/-- A bare name that is resolved to a label is found in a record under that label or not at all, if
and only if no other leaf that hides several relations has the only column of that name. So both
agree where renamings stand above single relations. -/
theorem resolve_agrees_iff (d : Dictionary) (dotless : d.AttributesDotless) (db : Database)
    (follows : db.Follows d) (p : Plan) (plain : p.Everywhere PlainNamesAt) (name label : String)
    (resolved : (Attribute.bare name).resolve p.leaves d = .resolved [label])
    (records : List Record) (evaluated : p.evaluate db = .ok records) (r : Record)
    (hr : r ∈ records) :
    ((∀ e, r.lookup? (.bare name) = some e → e.1 = attributeKey label name) ↔
      ¬ ∃ leaf ∈ p.leaves, leaf.base = none ∧ leaf.label ≠ label ∧
        r.OnlyColumn p.leaves name leaf) ∧
    (p.Everywhere BasedAt →
      ∀ e, r.lookup? (.bare name) = some e → e.1 = attributeKey label name) := by
  have traced := traced_of_evaluate dotless follows plain evaluated r hr
  have plainLabels := plainName_of_mem_labels plain
  obtain ⟨nameDotless, own, ownLeaf, ⟨⟩, unique⟩ :=
    Attribute.exists_leaf_of_resolve dotless rfl resolved
  -- What is found belongs to a leaf, and only leaves that hide relations can be another one.
  have found_in {e : String × Scalar} (found : r.lookup? (.bare name) = some e) :
      e.1 = attributeKey own.label name ∨ ∃ leaf ∈ p.leaves, leaf.base = none ∧
        e.1 = attributeKey leaf.label name ∧ r.OnlyColumn p.leaves name leaf := by
    obtain ⟨leaf, hleaf, key, declared, column⟩ :=
      traced.onlyColumn_of_lookup? plainLabels nameDotless found
    cases base : leaf.base with
    | none => exact .inr ⟨leaf, hleaf, base, key, column⟩
    | some relation => exact .inl (unique leaf hleaf relation base (declared relation base) ▸ key)
  refine ⟨⟨?_, fun none_hidden e found => ?_⟩, fun based e found => ?_⟩
  · rintro agree ⟨leaf, hleaf, -, apart, column⟩
    obtain ⟨v, found⟩ := traced.lookup?_of_onlyColumn plainLabels nameDotless column
    have same := agree _ found
    rw [attributeKey_inj (plainLabels _ (List.mem_map_of_mem hleaf)).1
      (plainLabels _ (List.mem_map_of_mem ownLeaf)).1] at same
    exact apart same.1
  · obtain key | ⟨leaf, hleaf, base, key, column⟩ := found_in found
    · exact key
    · by_contra apart
      exact none_hidden ⟨leaf, hleaf, base, fun same => apart (same ▸ key), column⟩
  · obtain key | ⟨leaf, hleaf, base, -⟩ := found_in found
    · exact key
    · have some_base := isSome_base_of_based based leaf hleaf
      rw [base] at some_base
      cases some_base

/-- Persons, and who eats what. -/
def guestsDictionary : Dictionary :=
  (Dictionary.empty.declare "Person" [("name", .string), ("age", .integer)]).declare "Eats"
    [("eater", .string), ("pizza", .string)]

/-- One person and one meal. -/
def guestsDatabase : Database :=
  Table.ofList
    [("Person", [⟨"Person", Table.ofList [("Person.name", .text "Amy"), ("Person.age", .int 16)]⟩]),
    ("Eats", [⟨"Eats", Table.ofList [("Eats.eater", .text "Amy"), ("Eats.pizza", .text "ham")]⟩])]

/-- The renaming hides two relations, but of the person below it only the name is left. -/
theorem resolve_agrees_guests :
    let p := Plan.cross
      (.rename "X"
        (.project [.bare "pizza", .bare "name"] (.cross (.scan "Person") (.scan "Eats"))))
      (.scan "Person")
    let r : Record := ⟨"X,Person", Table.ofList [("X.pizza", .text "ham"), ("X.name", .text "Amy"),
      ("Person.name", .text "Amy"), ("Person.age", .int 16)]⟩
    guestsDictionary.AttributesDotless ∧ guestsDatabase.Follows guestsDictionary ∧
      p.Everywhere PlainNamesAt ∧
      (Attribute.bare "age").resolve p.leaves guestsDictionary = .resolved ["Person"] ∧
      p.evaluate guestsDatabase = .ok [r] ∧ (r.lookup? (.bare "age")).isSome = true ∧
      ∀ e, r.lookup? (.bare "age") = some e → e.1 = attributeKey "Person" "age" := by
  intro p r
  have dotless : guestsDictionary.AttributesDotless := by decide
  have follows : guestsDatabase.Follows guestsDictionary := by decide +kernel
  have plain : p.Everywhere PlainNamesAt := by decide
  have resolved : (Attribute.bare "age").resolve p.leaves guestsDictionary =
      .resolved ["Person"] := by decide
  have evaluated : p.evaluate guestsDatabase = .ok [r] := by decide +kernel
  have none_hidden : ¬ ∃ leaf ∈ p.leaves, leaf.base = none ∧ leaf.label ≠ "Person" ∧
      r.OnlyColumn p.leaves "age" leaf := by decide +kernel
  exact ⟨dotless, follows, plain, resolved, evaluated, by decide +kernel,
    (resolve_agrees_iff guestsDictionary dotless guestsDatabase follows p plain "age" "Person"
      resolved [r] evaluated r (List.mem_singleton_self r)).1.mpr none_hidden⟩

/-- The age is resolved to the person on the right, of whom only the name is left, and is found on
the left. A selection by it sinks to the right, where it is not found. -/
theorem resolve_misses_hidden_column :
    let p := Plan.cross (.rename "X" (.cross (.scan "Person") (.scan "Eats")))
      (.project [.qualified "Person" "name"] (.scan "Person"))
    let r : Record := ⟨"X,Person", Table.ofList [("X.name", .text "Amy"), ("X.age", .int 16),
      ("X.eater", .text "Amy"), ("X.pizza", .text "ham"), ("Person.name", .text "Amy")]⟩
    let young := Plan.select (.equal (.attr (.bare "age")) (.literal (.int 16))) p
    guestsDictionary.RelationsPlain ∧ guestsDictionary.AttributesDotless ∧
      guestsDatabase.Follows guestsDictionary ∧ p.Everywhere PlainNamesAt ∧ p.Everywhere ApartAt ∧
      (Attribute.bare "age").resolve p.leaves guestsDictionary = .resolved ["Person"] ∧
      p.evaluate guestsDatabase = .ok [r] ∧
      r.lookup? (.bare "age") = some ("X.age", .int 16) ∧
      young.evaluate guestsDatabase = .ok [r] ∧
      (young.sinkSelections guestsDictionary).evaluate guestsDatabase =
        .error (.unresolved "age" "Person") := by
  decide +kernel

end Plan

end StagedAlgebra
