import StagedAlgebra.Proofs.KeyForms
import StagedAlgebra.Proofs.OperatorRuns
import StagedAlgebra.Proofs.TextKeys

/-!
# Joining by key and joining by condition

A condition that equates keys of two records holds in their pair exactly if both records are filed
under one key. That takes two things: no key belongs to both records, so each of them finds its own
attribute of every equality, whichever way round it is written; and the values are such that
equality and the forms by which records are filed agree.
-/

namespace StagedAlgebra

/-- Equality and joining forms agree on some values. -/
def Scalar.Keyed (values : List Scalar) : Prop :=
  ∀ v ∈ values, ∀ w ∈ values, v.looselyEqual w = true ↔ v.SameKey w

/-- The values of a tuple. -/
def Tuple.values (t : Tuple) : List Scalar :=
  t.entries.map (·.2)

theorem Tuple.mem_values_iff {t : Tuple} {v : Scalar} :
    v ∈ t.values ↔ ∃ key, t.get? key = some v := by
  simp only [values, List.mem_map, Prod.exists, exists_eq_right, Table.get?_eq_some_iff]

instance (a b : Scalar) : Decidable (a.SameKey b) :=
  decidable_of_iff (a.keyForm?.isSome = true ∧ b.keyForm? = a.keyForm?) (by
    unfold Scalar.SameKey
    cases a.keyForm? <;> simp)

instance (values : List Scalar) : Decidable (Scalar.Keyed values) :=
  inferInstanceAs (Decidable (∀ _ ∈ _, ∀ _ ∈ _, (_ ↔ _)))

namespace Condition

/-- A condition holds exactly if its conjuncts do. -/
theorem holds_iff_conjuncts {c : Condition} {r : Record} :
    c.holds r = true ↔ ∀ conjunct ∈ c.conjuncts, conjunct.holds r = true := by
  induction c with
  | attr _ | literal _ | equal _ _ _ _ => simp [conjuncts]
  | both left right ihl ihr =>
      rw [holds_both, Bool.and_eq_true, ihl, ihr]
      simp only [conjuncts_both, List.mem_append, or_imp, forall_and]

/-- The keys that a condition equates. -/
def keyPair? (c : Condition) : Option (String × String) :=
  c.attributePair?.bind fun (a, b) =>
    a.qualifiedKey?.bind fun x => b.qualifiedKey?.map fun y => (x, y)

theorem keyPair?_eq_some_iff {c : Condition} {x y : String} :
    c.keyPair? = some (x, y) ↔ ∃ a b, c = .equal (.attr a) (.attr b) ∧
      a.qualifiedKey? = some x ∧ b.qualifiedKey? = some y := by
  constructor
  · intro h
    obtain ⟨⟨a, b⟩, pair, rest⟩ := Option.bind_eq_some_iff.mp h
    obtain ⟨x', first, rest⟩ := Option.bind_eq_some_iff.mp rest
    obtain ⟨y', second, equal⟩ := Option.map_eq_some_iff.mp rest
    cases equal
    unfold attributePair? at pair
    split at pair
    · cases pair
      exact ⟨a, b, rfl, first, second⟩
    · cases pair
  · rintro ⟨a, b, rfl, first, second⟩
    simp [keyPair?, attributePair?, first, second]

/-- Every conjunct equates a key of one side with a key of the other, in either order. -/
def Equates (c : Condition) (left right : List String) : Prop :=
  ∀ conjunct ∈ c.conjuncts, ∃ pair ∈ conjunct.keyPair?,
    (pair.1 ∈ left ∧ pair.2 ∈ right) ∨ (pair.1 ∈ right ∧ pair.2 ∈ left)

instance (c : Condition) (left right : List String) : Decidable (c.Equates left right) :=
  inferInstanceAs (Decidable (∀ _ ∈ _, ∃ _ ∈ _, _ ∨ _))

/-- A conjunct that equates sides, taken apart. -/
theorem Equates.cases {c conjunct : Condition} {left right : List String}
    (h : c.Equates left right) (member : conjunct ∈ c.conjuncts) :
    ∃ a b x y, conjunct = .equal (.attr a) (.attr b) ∧ a.qualifiedKey? = some x ∧
      b.qualifiedKey? = some y ∧ ((x ∈ left ∧ y ∈ right) ∨ (x ∈ right ∧ y ∈ left)) := by
  obtain ⟨⟨x, y⟩, pair, sides⟩ := h conjunct member
  obtain ⟨a, b, equal, first, second⟩ := keyPair?_eq_some_iff.mp pair
  exact ⟨a, b, x, y, equal, first, second, sides⟩

theorem Equates.isPredicate {c : Condition} {left right : List String}
    (h : c.Equates left right) : c.IsPredicate := by
  intro conjunct member
  obtain ⟨a, b, -, -, rfl, -⟩ := h.cases member
  rfl

end Condition

section Pairs

variable {l s r : Record} {a b : Attribute} {x y : String}

theorem Record.lookup_of_key {v : Scalar} (key : a.qualifiedKey? = some x)
    (found : r.tuple.get? x = some v) : r.lookup a = .ok (x, v) := by
  apply Record.lookup_eq_ok
  simp [Record.lookup?, Record.entry?, key, found]

namespace KeyJoin

theorem sideValue?_of_key (key : a.qualifiedKey? = some x) :
    sideValue? r a = r.tuple.get? x := by
  simp [sideValue?, key]

theorem pairValue_first {v : Scalar} (first : a.qualifiedKey? = some x)
    (found : r.tuple.get? x = some v) : pairValue r (a, b) = .ok v := by
  simp [pairValue, sideValue?_of_key first, found]

theorem pairValue_second {v : Scalar} (first : a.qualifiedKey? = some x)
    (second : b.qualifiedKey? = some y) (missed : x ∉ r.tuple.keys)
    (found : r.tuple.get? y = some v) : pairValue r (a, b) = .ok v := by
  have none_found := Table.get?_eq_none_iff.mpr missed
  simp [pairValue, sideValue?_of_key first, sideValue?_of_key second, none_found, found]

/-- A record with one of two equated keys has a value for the pair. -/
theorem exists_pairValue (first : a.qualifiedKey? = some x) (second : b.qualifiedKey? = some y)
    (has : x ∈ r.tuple.keys ∨ y ∈ r.tuple.keys) : ∃ v, pairValue r (a, b) = .ok v := by
  by_cases hasFirst : x ∈ r.tuple.keys
  · obtain ⟨v, found⟩ := Table.mem_keys_iff_exists.mp hasFirst
    exact ⟨v, pairValue_first first found⟩
  · obtain ⟨v, found⟩ := Table.mem_keys_iff_exists.mp (has.resolve_left hasFirst)
    exact ⟨v, pairValue_second first second hasFirst found⟩

end KeyJoin

theorem Condition.holds_equal {v w : Scalar} (first : r.lookup a = .ok (x, v))
    (second : r.lookup b = .ok (y, w)) :
    (Condition.equal (.attr a) (.attr b)).holds r = v.looselyEqual w := by
  simp [holds, holdsIn, equalIn, first, second, Except.map]

/-- An equality of keys of two records holds in their pair if the values have one form. -/
theorem KeyJoin.exists_pairValues {label : String} (disjoint : l.tuple.keys.Disjoint s.tuple.keys)
    (keyed : Scalar.Keyed (l.tuple.values ++ s.tuple.values)) (first : a.qualifiedKey? = some x)
    (second : b.qualifiedKey? = some y)
    (sides : (x ∈ l.tuple.keys ∧ y ∈ s.tuple.keys) ∨ (x ∈ s.tuple.keys ∧ y ∈ l.tuple.keys)) :
    ∃ v w, pairValue l (a, b) = .ok v ∧ pairValue s (a, b) = .ok w ∧
      ((Condition.equal (.attr a) (.attr b)).holds ⟨label, l.tuple.union s.tuple⟩ = true ↔
        v.SameKey w) := by
  have fromLeft {a : Attribute} {k : String} {v : Scalar} (key : a.qualifiedKey? = some k)
      (found : l.tuple.get? k = some v) :
      Record.lookup ⟨label, l.tuple.union s.tuple⟩ a = .ok (k, v) := by
    refine Record.lookup_of_key key ?_
    have missed : k ∉ s.tuple.keys := disjoint (Table.mem_keys_iff_exists.mpr ⟨v, found⟩)
    rw [Table.get?_union, Table.get?_eq_none_iff.mpr missed, Option.none_or, found]
  have fromRight {a : Attribute} {k : String} {v : Scalar} (key : a.qualifiedKey? = some k)
      (found : s.tuple.get? k = some v) :
      Record.lookup ⟨label, l.tuple.union s.tuple⟩ a = .ok (k, v) := by
    refine Record.lookup_of_key key ?_
    rw [Table.get?_union, found, Option.some_or]
  have inLeft {k : String} {v : Scalar} (found : l.tuple.get? k = some v) :
      v ∈ l.tuple.values ++ s.tuple.values :=
    List.mem_append_left _ (Tuple.mem_values_iff.mpr ⟨k, found⟩)
  have inRight {k : String} {v : Scalar} (found : s.tuple.get? k = some v) :
      v ∈ l.tuple.values ++ s.tuple.values :=
    List.mem_append_right _ (Tuple.mem_values_iff.mpr ⟨k, found⟩)
  rcases sides with ⟨hx, hy⟩ | ⟨hx, hy⟩
  · obtain ⟨v, atX⟩ := Table.mem_keys_iff_exists.mp hx
    obtain ⟨w, atY⟩ := Table.mem_keys_iff_exists.mp hy
    refine ⟨v, w, pairValue_first first atX, pairValue_second first second (disjoint hx) atY, ?_⟩
    rw [Condition.holds_equal (fromLeft first atX) (fromRight second atY)]
    exact keyed v (inLeft atX) w (inRight atY)
  · obtain ⟨w, atX⟩ := Table.mem_keys_iff_exists.mp hx
    obtain ⟨v, atY⟩ := Table.mem_keys_iff_exists.mp hy
    have missed : x ∉ l.tuple.keys := fun member => disjoint member hx
    refine ⟨v, w, pairValue_second first second missed atY, pairValue_first first atX, ?_⟩
    rw [Condition.holds_equal (fromRight first atX) (fromLeft second atY), Scalar.sameKey_comm]
    exact keyed w (inRight atX) v (inLeft atY)

end Pairs

namespace KeyJoin

variable {l s r : Record} {j : KeyJoin}

/-- The forms under which a record is filed for some pairs of attributes. -/
def HasForms (r : Record) (pairs : List (Attribute × Attribute)) (forms : List Scalar) : Prop :=
  ∃ values, pairs.mapM (pairValue r) = .ok values ∧ values.mapM Scalar.keyForm? = some forms

theorem files_iff {key : String} :
    j.Files r key ↔ ∃ forms, HasForms r j.pairs forms ∧ keyText forms = key := by
  constructor
  · rintro ⟨values, forms, found, formed, rfl⟩
    exact ⟨forms, ⟨values, found, formed⟩, rfl⟩
  · rintro ⟨forms, ⟨values, found, formed⟩, rfl⟩
    exact ⟨values, forms, found, formed, rfl⟩

theorem hasForms_nil {forms : List Scalar} : HasForms r [] forms ↔ forms = [] := by
  constructor
  · rintro ⟨values, found, formed⟩
    cases found
    exact (Option.some.inj formed).symm
  · rintro rfl
    exact ⟨[], rfl, rfl⟩

theorem hasForms_cons {pair : Attribute × Attribute} {pairs : List (Attribute × Attribute)}
    {forms : List Scalar} :
    HasForms r (pair :: pairs) forms ↔ ∃ v form others, pairValue r pair = .ok v ∧
      v.keyForm? = some form ∧ HasForms r pairs others ∧ forms = form :: others := by
  constructor
  · rintro ⟨values, found, formed⟩
    rw [mapM_eq_ok_iff, List.forall₂_cons_left_iff] at found
    obtain ⟨v, rest, value, found, rfl⟩ := found
    rw [List.mapM_cons] at formed
    obtain ⟨form, first, formed⟩ := Option.bind_eq_some_iff.mp formed
    obtain ⟨others, formed, equal⟩ := Option.bind_eq_some_iff.mp formed
    exact ⟨v, form, others, value, first, ⟨rest, mapM_eq_ok_iff.mpr found, formed⟩,
      (Option.some.inj equal).symm⟩
  · rintro ⟨v, form, others, value, first, ⟨rest, found, formed⟩, rfl⟩
    refine ⟨v :: rest, ?_, ?_⟩
    · rw [mapM_eq_ok_iff] at found ⊢
      exact .cons value found
    · rw [List.mapM_cons, first, formed]
      rfl

/-- Two records have all forms in common exactly if their values of each pair have one form. -/
theorem exists_hasForms_iff {pairs : List (Attribute × Attribute)} :
    (∃ forms, HasForms l pairs forms ∧ HasForms s pairs forms) ↔
      ∀ pair ∈ pairs, ∃ v w, pairValue l pair = .ok v ∧ pairValue s pair = .ok w ∧ v.SameKey w := by
  induction pairs with
  | nil => simp [hasForms_nil]
  | cons pair pairs ih =>
      rw [List.forall_mem_cons, ← ih]
      constructor
      · rintro ⟨forms, allLeft, allRight⟩
        obtain ⟨v, form, others, value, first, left, rfl⟩ := hasForms_cons.mp allLeft
        obtain ⟨w, form', others', value', first', right, equal⟩ := hasForms_cons.mp allRight
        cases equal
        exact ⟨⟨v, w, value, value', form, first, first'⟩, others, left, right⟩
      · rintro ⟨⟨v, w, value, value', form, first, first'⟩, others, left, right⟩
        exact ⟨form :: others, hasForms_cons.mpr ⟨v, form, others, value, first, left, rfl⟩,
          hasForms_cons.mpr ⟨w, form, others, value', first', right, rfl⟩⟩

/-- Two records are filed under one key exactly if their values of each pair have one form. -/
theorem exists_files_iff : (∃ key, j.Files l key ∧ j.Files s key) ↔
    ∀ pair ∈ j.pairs, ∃ v w, pairValue l pair = .ok v ∧ pairValue s pair = .ok w ∧
      v.SameKey w := by
  rw [← exists_hasForms_iff]
  simp only [files_iff]
  constructor
  · rintro ⟨key, ⟨forms, left, equal⟩, forms', right, equal'⟩
    obtain rfl := keyText_injective (equal.trans equal'.symm)
    exact ⟨forms, left, right⟩
  · rintro ⟨forms, left, right⟩
    exact ⟨keyText forms, ⟨forms, left, rfl⟩, forms, right, rfl⟩

theorem mem_pairs_iff {c : Condition} {leftLabel rightLabel : String}
    (h : ofCondition c leftLabel rightLabel = .ok j) {pair : Attribute × Attribute} :
    pair ∈ j.pairs ↔ ∃ conjunct ∈ c.conjuncts, conjunct.attributePair = .ok pair := by
  obtain ⟨pairs, all, rfl⟩ := map_eq_ok_iff.mp h
  exact mem_of_mapM_eq_ok all pair

theorem attributePair_equal (a b : Attribute) :
    (Condition.equal (.attr a) (.attr b)).attributePair = .ok (a, b) := rfl

/-- A condition that equates keys makes a join. -/
theorem exists_ofCondition {c : Condition} {left right : List String} (h : c.Equates left right)
    (leftLabel rightLabel : String) : ∃ j, ofCondition c leftLabel rightLabel = .ok j ∧
      j.leftLabel = leftLabel ∧ j.rightLabel = rightLabel := by
  obtain ⟨pairs, all⟩ : ∃ pairs, c.conjuncts.mapM Condition.attributePair = .ok pairs := by
    refine exists_mapM_eq_ok fun conjunct member => ?_
    obtain ⟨a, b, -, -, rfl, -⟩ := h.cases member
    exact ⟨(a, b), rfl⟩
  exact ⟨⟨leftLabel, rightLabel, pairs⟩, by simp [ofCondition, all, Except.map], rfl, rfl⟩

/-- Every record of a side can be filed, or is left out. -/
theorem exists_file {c : Condition} {left right : List String} (h : c.Equates left right)
    {leftLabel rightLabel : String} (made : ofCondition c leftLabel rightLabel = .ok j)
    (keys : r.tuple.keys = left ∨ r.tuple.keys = right) : ∃ entries, j.file r = .ok entries := by
  have values : ∃ values, j.keyValues r = .ok values := by
    refine exists_mapM_eq_ok fun pair member => ?_
    obtain ⟨conjunct, inside, equal⟩ := (mem_pairs_iff made).mp member
    obtain ⟨a, b, x, y, rfl, first, second, sides⟩ := h.cases inside
    cases equal
    refine exists_pairValue first second ?_
    rcases keys with keys | keys <;> rw [keys]
    · exact sides.imp (·.1) (·.2)
    · exact sides.symm.imp (·.1) (·.2)
  obtain ⟨values, found⟩ := values
  exact ⟨_, by rw [file, found]; rfl⟩

/-- Two records are filed under one key exactly if the condition holds in their pair. -/
theorem exists_files_iff_holds {c : Condition} {label leftLabel rightLabel : String}
    (made : ofCondition c leftLabel rightLabel = .ok j)
    (equates : c.Equates l.tuple.keys s.tuple.keys)
    (disjoint : l.tuple.keys.Disjoint s.tuple.keys)
    (keyed : Scalar.Keyed (l.tuple.values ++ s.tuple.values)) :
    (∃ key, j.Files l key ∧ j.Files s key) ↔ c.holds ⟨label, l.tuple.union s.tuple⟩ = true := by
  rw [exists_files_iff, Condition.holds_iff_conjuncts]
  constructor
  · intro filed conjunct member
    obtain ⟨a, b, x, y, rfl, first, second, sides⟩ := equates.cases member
    obtain ⟨v, w, value, value', holds⟩ := exists_pairValues disjoint keyed first second sides
    obtain ⟨v', w', found, found', same⟩ :=
      filed (a, b) ((mem_pairs_iff made).mpr ⟨_, member, attributePair_equal a b⟩)
    rw [value, Except.ok.injEq] at found
    rw [value', Except.ok.injEq] at found'
    rw [holds, found, found']
    exact same
  · intro all pair member
    obtain ⟨conjunct, inside, equal⟩ := (mem_pairs_iff made).mp member
    obtain ⟨a, b, x, y, rfl, first, second, sides⟩ := equates.cases inside
    cases equal
    obtain ⟨v, w, value, value', holds⟩ := exists_pairValues disjoint keyed first second sides
    exact ⟨v, w, value, value', holds.mp (all _ inside)⟩

end KeyJoin

end StagedAlgebra
