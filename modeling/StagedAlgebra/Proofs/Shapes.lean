import StagedAlgebra.Condition.Evaluation
import StagedAlgebra.Proofs.Tables

/-!
# What a condition reads of a record

Which key an attribute refers to is decided by the label and the keys of a record alone, its
*shape*; the value is then the one under that key. A condition depends on a record only through
the values of its attributes, and a conjunction of equalities between operands can be evaluated
wherever these are found.
-/

namespace StagedAlgebra

theorem eq_singleton_of_nodup {α : Type u} {xs : List α} {x : α} (hnodup : xs.Nodup)
    (hmem : x ∈ xs) (h : ∀ y ∈ xs, y = x) : xs = [x] := by
  match xs with
  | [] => simp at hmem
  | [y] => rw [h y (List.mem_singleton_self y)]
  | y :: z :: rest =>
      have hy := h y (by simp)
      have hz := h z (by simp)
      simp [hy, hz] at hnodup

namespace Record

/-- Two records have one label and the same keys. -/
def SameShape (r s : Record) : Prop :=
  r.label = s.label ∧ r.tuple.keys = s.tuple.keys

theorem map_fst_entry? (r : Record) (key : String) :
    (r.entry? key).map (·.1) = if key ∈ r.tuple.keys then some key else none := by
  by_cases hk : key ∈ r.tuple.keys
  · obtain ⟨v, hv⟩ := Table.mem_keys_iff_exists.1 hk
    simp [ entry?, hv, hk]
  · have hnone := Table.get?_eq_none_iff.2 hk
    simp [ entry?, hnone, hk]

/-- The key that ends in a name, if only one of some keys does. -/
theorem map_fst_entryEndingIn? (r : Record) (name : String) :
    (r.entryEndingIn? name).map (·.1) =
      match r.tuple.keys.filter (keyEndsIn name) with
      | [key] => some key
      | _ => none := by
  have hkeys : r.tuple.keys.filter (keyEndsIn name) =
      (r.tuple.entries.filter fun e => keyEndsIn name e.1).map (·.1) := by
    rw [Table.keys, List.filter_map]
    rfl
  rw [hkeys, entryEndingIn?]
  generalize r.tuple.entries.filter (fun e => keyEndsIn name e.1) = ending
  obtain _ | ⟨_, _ | ⟨_, _⟩⟩ := ending
  · rfl
  · rfl
  · rfl

/-- Records of one shape find an attribute under the same key. -/
theorem SameShape.map_fst_lookup? {r s : Record} (h : r.SameShape s) (a : Attribute) :
    (r.lookup? a).map (·.1) = (s.lookup? a).map (·.1) := by
  have hentry : ∀ key, (r.entry? key).map (·.1) = (s.entry? key).map (·.1) := fun key => by
    rw [ map_fst_entry?, map_fst_entry?, h.2]
  have hending : (r.entryEndingIn? a.name).map (·.1) = (s.entryEndingIn? a.name).map (·.1) := by
    rw [map_fst_entryEndingIn?, map_fst_entryEndingIn?, h.2]
  simp only [lookup?]
  cases a.qualifiedKey? with
  | none => simp only [Option.map_or, hentry, hending, h.1]
  | some key => simp only [Option.map_or, hentry, h.1]

theorem SameShape.isSome_lookup? {r s : Record} (h : r.SameShape s) (a : Attribute) :
    (r.lookup? a).isSome = (s.lookup? a).isSome := by
  rw [← Option.isSome_map, h.map_fst_lookup? a, Option.isSome_map]

theorem get?_of_entry? {r : Record} {key : String} {e : String × Scalar}
    (h : r.entry? key = some e) : r.tuple.get? e.1 = some e.2 := by
  obtain ⟨v, hv, rfl⟩ := Option.map_eq_some_iff.1 h
  exact hv

theorem filter_of_entryEndingIn? {r : Record} {name : String} {e : String × Scalar}
    (h : r.entryEndingIn? name = some e) :
    (r.tuple.entries.filter fun e => keyEndsIn name e.1) = [e] := by
  unfold entryEndingIn? at h
  split at h
  · rename_i f hf
    rw [hf, Option.some.inj h]
  · simp at h

/-- What is found for an attribute is an entry of the record. -/
theorem get?_of_lookup? {r : Record} {a : Attribute} {e : String × Scalar}
    (h : r.lookup? a = some e) : r.tuple.get? e.1 = some e.2 := by
  simp only [lookup?] at h
  split at h
  · rcases Option.or_eq_some_iff.1 h with h | ⟨_, h⟩
    · exact get?_of_entry? h
    · exact get?_of_entry? h
  · rcases Option.or_eq_some_iff.1 h with h | ⟨_, h⟩
    · exact get?_of_entry? h
    · have hmem : e ∈ r.tuple.entries.filter fun e => keyEndsIn a.name e.1 := by
        rw [filter_of_entryEndingIn? h]
        simp
      exact Table.get?_eq_some_iff.2 (List.mem_filter.1 hmem).1

theorem lookup_eq_ok {r : Record} {a : Attribute} {e : String × Scalar}
    (h : r.lookup? a = some e) : r.lookup a = .ok e := by
  simp [lookup, h]

end Record

namespace Condition

/-- A condition is a conjunction of equalities between operands. -/
def IsPredicate (c : Condition) : Prop :=
  ∀ conjunct ∈ c.conjuncts, conjunct.isAtomic = true

instance (c : Condition) : Decidable c.IsPredicate :=
  inferInstanceAs (Decidable (∀ _ ∈ _, _))

/-- Whether a condition holds in a record; it does not where it cannot be evaluated. -/
def holds (c : Condition) (r : Record) : Bool :=
  match c.holdsIn r with
  | .ok answer => answer
  | .error _ => false

theorem isPredicate_both {left right : Condition} :
    (both left right).IsPredicate ↔ left.IsPredicate ∧ right.IsPredicate := by
  simp [IsPredicate, or_imp, forall_and]

theorem holds_both (left right : Condition) :
    (both left right).holds = fun r => left.holds r && right.holds r := by
  funext r
  simp only [holds, holdsIn]
  cases left.holdsIn r with
  | error fault => rfl
  | ok answer => cases answer <;> rfl

/-- Two operands can be compared wherever their attributes are found. -/
theorem exists_equalIn {r : Record} {left right : Condition}
    (hatom : (equal left right).isAtomic = true)
    (h : ∀ a ∈ (equal left right).attributes, (r.lookup? a).isSome) :
    ∃ answer, equalIn r left right = .ok answer := by
  cases left with
  | attr a =>
      obtain ⟨e, he⟩ := Option.isSome_iff_exists.1 (h a (by simp [attributes]))
      have ha := Record.lookup_eq_ok he
      cases right with
      | attr b =>
          obtain ⟨f, hf⟩ := Option.isSome_iff_exists.1 (h b (by simp [attributes]))
          have hb := Record.lookup_eq_ok hf
          exact ⟨_, by simp only [equalIn, ha, hb, Except.map]; rfl⟩
      | literal l => exact ⟨_, by simp only [equalIn, ha, Except.map]; rfl⟩
      | equal _ _ => simp [isAtomic, isOperand] at hatom
      | both _ _ => simp [isAtomic, isOperand] at hatom
  | literal l =>
      cases right with
      | attr b =>
          obtain ⟨f, hf⟩ := Option.isSome_iff_exists.1 (h b (by simp [attributes]))
          have hb := Record.lookup_eq_ok hf
          exact ⟨_, by simp only [equalIn, hb, Except.map]; rfl⟩
      | literal m => exact ⟨_, by simp only [equalIn]; rfl⟩
      | equal _ _ => simp [isAtomic, isOperand] at hatom
      | both _ _ => simp [isAtomic, isOperand] at hatom
  | equal _ _ => simp [isAtomic, isOperand] at hatom
  | both _ _ => simp [isAtomic, isOperand] at hatom

/-- A conjunction of equalities can be evaluated wherever its attributes are found. -/
theorem holdsIn_eq_holds {r : Record} {c : Condition} (hc : c.IsPredicate)
    (h : ∀ a ∈ c.attributes, (r.lookup? a).isSome) : c.holdsIn r = .ok (c.holds r) := by
  induction c with
  | attr a => simp [IsPredicate, conjuncts, isAtomic] at hc
  | literal l => simp [IsPredicate, conjuncts, isAtomic] at hc
  | equal left right _ _ =>
      have hatom : (equal left right).isAtomic = true := hc _ (by simp [conjuncts])
      obtain ⟨answer, hanswer⟩ := exists_equalIn hatom h
      simp [holds, holdsIn, hanswer]
  | both left right ihl ihr =>
      obtain ⟨hleft, hright⟩ := isPredicate_both.1 hc
      have hl := ihl hleft fun a ha => h a (by simp [attributes, ha])
      have hr := ihr hright fun a ha => h a (by simp [attributes, ha])
      rw [holds_both]
      simp only [holdsIn, hl, hr]
      cases left.holds r <;> rfl

/-- A condition holds alike in records that have the same values for its attributes. -/
theorem holdsIn_congr {r s : Record} {c : Condition}
    (h : ∀ a ∈ c.attributes, ∃ e f, r.lookup? a = some e ∧ s.lookup? a = some f ∧ e.2 = f.2) :
    c.holdsIn r = c.holdsIn s := by
  have hlookup : ∀ a ∈ c.attributes, ∃ e f, r.lookup a = .ok e ∧ s.lookup a = .ok f ∧ e.2 = f.2 := by
    intro a ha
    obtain ⟨e, f, he, hf, heq⟩ := h a ha
    exact ⟨e, f, Record.lookup_eq_ok he, Record.lookup_eq_ok hf, heq⟩
  clear h
  induction c with
  | attr a => rfl
  | literal l => rfl
  | both left right ihl ihr =>
      have hl := ihl fun a ha => hlookup a (by simp [attributes, ha])
      have hr := ihr fun a ha => hlookup a (by simp [attributes, ha])
      simp only [holdsIn, hl, hr]
  | equal left right _ _ =>
      simp only [holdsIn]
      cases left with
      | attr a =>
          obtain ⟨e, f, he, hf, heq⟩ := hlookup a (by simp [attributes])
          cases right with
          | attr b =>
              obtain ⟨e', f', he', hf', heq'⟩ := hlookup b (by simp [attributes])
              simp only [equalIn, he, hf, he', hf', Except.map, heq, heq']
          | literal l => simp only [equalIn, he, hf, Except.map, heq]
          | equal _ _ => rfl
          | both _ _ => rfl
      | literal l =>
          cases right with
          | attr b =>
              obtain ⟨e, f, he, hf, heq⟩ := hlookup b (by simp [attributes])
              simp only [equalIn, he, hf, Except.map, heq]
          | literal m => rfl
          | equal _ _ => rfl
          | both _ _ => rfl
      | equal _ _ => rfl
      | both _ _ => rfl

end Condition

end StagedAlgebra
