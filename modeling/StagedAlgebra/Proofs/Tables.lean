import Mathlib.Data.List.Basic
import StagedAlgebra.Table

/-!
# Look-ups in tables

A table is determined by its look-ups, and every operation on tables is described by what it does
to them. The lemmas here carry all later reasoning about tuples, dictionaries and stores; none of
it opens the list of entries again.
-/

namespace StagedAlgebra.Table

variable {β : Type u} {γ : Type v}

theorem find?_isSome_iff {k : String} {entries : List (String × β)} :
    (find? k entries).isSome ↔ k ∈ entries.map (·.1) := by
  induction entries with
  | nil => simp [find?]
  | cons head rest ih =>
      by_cases hk : head.1 = k
      · simp [find?, hk]
      · simp [find?, hk, ih, Ne.symm hk]

theorem mem_of_find? {k : String} {v : β} {entries : List (String × β)}
    (h : find? k entries = some v) : (k, v) ∈ entries := by
  induction entries with
  | nil => simp [find?] at h
  | cons head rest ih =>
      by_cases hk : head.1 = k
      · simp only [find?, hk, if_true, Option.some.injEq] at h
        simp [← hk, ← h]
      · simp only [find?, hk, if_false] at h
        exact List.mem_cons_of_mem _ (ih h)

theorem find?_of_mem {k : String} {v : β} {entries : List (String × β)}
    (hasc : Ascending entries) (h : (k, v) ∈ entries) : find? k entries = some v := by
  induction entries with
  | nil => simp at h
  | cons head rest ih =>
      have hasc' := List.pairwise_cons.1 hasc
      rcases List.mem_cons.1 h with rfl | hrest
      · simp [find?]
      · have hne : head.1 ≠ k := fun heq =>
          String.lt_irrefl k (heq ▸ hasc'.1 (k, v) hrest)
        simp [find?, hne, ih hasc'.2 hrest]

/-- A look-up finds exactly the entries. -/
theorem get?_eq_some_iff {t : Table β} {k : String} {v : β} :
    t.get? k = some v ↔ (k, v) ∈ t.entries :=
  ⟨mem_of_find?, find?_of_mem t.ascending⟩

theorem mem_keys_iff {t : Table β} {k : String} : k ∈ t.keys ↔ (t.get? k).isSome :=
  find?_isSome_iff.symm

theorem mem_keys_iff_exists {t : Table β} {k : String} :
    k ∈ t.keys ↔ ∃ v, t.get? k = some v := by
  rw [mem_keys_iff, Option.isSome_iff_exists]

theorem get?_eq_none_iff {t : Table β} {k : String} : t.get? k = none ↔ k ∉ t.keys := by
  rw [mem_keys_iff, Option.not_isSome_iff_eq_none]

theorem contains_iff {t : Table β} {k : String} : t.contains k = true ↔ k ∈ t.keys :=
  mem_keys_iff.symm

theorem keys_pairwise (t : Table β) : t.keys.Pairwise (· < ·) :=
  List.pairwise_map.2 t.ascending

theorem nodup_of_pairwise_lt {xs : List String} (h : xs.Pairwise (· < ·)) : xs.Nodup := by
  refine List.Pairwise.imp ?_ h
  intro a b hlt heq
  subst heq
  exact String.lt_irrefl a hlt

theorem keys_nodup (t : Table β) : t.keys.Nodup :=
  nodup_of_pairwise_lt t.keys_pairwise

/-- Two ascending lists with the same members are equal. -/
theorem eq_of_pairwise_lt {xs ys : List String} (hx : xs.Pairwise (· < ·))
    (hy : ys.Pairwise (· < ·)) (h : ∀ k, k ∈ xs ↔ k ∈ ys) : xs = ys := by
  have hperm : xs.Perm ys :=
    (List.perm_ext_iff_of_nodup (nodup_of_pairwise_lt hx) (nodup_of_pairwise_lt hy)).2 h
  refine hperm.eq_of_pairwise ?_ hx hy
  intro a b _ _ hab hba
  exact (String.lt_irrefl a (String.lt_trans hab hba)).elim

/-- Tables with the same keys list them alike. -/
theorem keys_eq_iff {t : Table β} {u : Table γ} :
    t.keys = u.keys ↔ ∀ k, k ∈ t.keys ↔ k ∈ u.keys :=
  ⟨fun h _ => h ▸ Iff.rfl, eq_of_pairwise_lt t.keys_pairwise u.keys_pairwise⟩

theorem entries_eq_map (t : Table β) :
    t.entries.map some = t.keys.map fun k => (t.get? k).map (k, ·) := by
  simp only [keys, List.map_map]
  refine List.map_congr_left fun e he => ?_
  have hget : t.get? e.1 = some e.2 := get?_eq_some_iff.2 he
  simp [hget]

/-- Tables with the same look-ups are equal. -/
theorem ext_get? {t u : Table β} (h : ∀ k, t.get? k = u.get? k) : t = u := by
  have hkeys : t.keys = u.keys := keys_eq_iff.2 fun k => by rw [mem_keys_iff, mem_keys_iff, h]
  have hsome : t.entries.map some = u.entries.map some := by
    rw [entries_eq_map, entries_eq_map, hkeys]
    exact List.map_congr_left fun k _ => by rw [h]
  exact ext (List.map_injective_iff.2 (fun _ _ => Option.some.inj) hsome)

@[simp] theorem mem_keys_insert {t : Table β} {key k : String} {value : β} :
    k ∈ (t.insert key value).keys ↔ k = key ∨ k ∈ t.keys := by
  rw [mem_keys_iff, mem_keys_iff, get?_insert]
  by_cases h : key = k
  · simp [h]
  · simp [h, Ne.symm h]

@[simp] theorem keys_empty : (empty : Table β).keys = [] := rfl

/-- The value that a list of entries put one by one leaves under a key. -/
theorem get?_foldl_insert (entries : List (String × β)) (t : Table β) (k : String) :
    (entries.foldl (fun acc e => acc.insert e.1 e.2) t).get? k =
      (find? k entries.reverse).or (t.get? k) := by
  induction entries generalizing t with
  | nil => simp [find?]
  | cons e rest ih =>
      have hlast : ∀ xs : List (String × β), find? k (xs ++ [e]) =
          (find? k xs).or (if e.1 = k then some e.2 else none) := by
        intro xs
        induction xs with
        | nil => simp [find?]
        | cons x xs ihx => by_cases hx : x.1 = k <;> simp [find?, hx, ihx]
      rw [List.foldl_cons, ih, get?_insert, List.reverse_cons, hlast]
      by_cases hk : e.1 = k <;> cases find? k rest.reverse <;> simp [hk]

theorem get?_ofList (entries : List (String × β)) (k : String) :
    (ofList entries).get? k = find? k entries.reverse := by
  simp [ofList, get?_foldl_insert]

@[simp] theorem mem_keys_ofList {entries : List (String × β)} {k : String} :
    k ∈ (ofList entries).keys ↔ k ∈ entries.map (·.1) := by
  rw [mem_keys_iff, get?_ofList, find?_isSome_iff]
  simp

theorem find?_reverse {k : String} {entries : List (String × β)} (h : Ascending entries) :
    find? k entries.reverse = find? k entries := by
  have hmem : ∀ v, find? k entries.reverse = some v ↔ find? k entries = some v := by
    intro v
    constructor
    · intro hv
      exact find?_of_mem h (List.mem_reverse.1 (mem_of_find? hv))
    · intro hv
      have hsome : (find? k entries.reverse).isSome := by
        rw [find?_isSome_iff, List.map_reverse, List.mem_reverse, ← find?_isSome_iff, hv]
        rfl
      obtain ⟨w, hw⟩ := Option.isSome_iff_exists.1 hsome
      have heq := find?_of_mem h (List.mem_reverse.1 (mem_of_find? hw))
      rw [hw, ← hv, heq]
  exact Option.ext hmem

@[simp] theorem ofList_entries (t : Table β) : ofList t.entries = t :=
  ext_get? fun k => by
    rw [get?_ofList, find?_reverse t.ascending]
    rfl

/-- In a union the second table is asked first. -/
theorem get?_union (t u : Table β) (k : String) :
    (t.union u).get? k = (u.get? k).or (t.get? k) := by
  rw [union, get?_foldl_insert, find?_reverse u.ascending]
  rfl

@[simp] theorem mem_keys_union {t u : Table β} {k : String} :
    k ∈ (t.union u).keys ↔ k ∈ t.keys ∨ k ∈ u.keys := by
  simp only [mem_keys_iff, get?_union, Option.isSome_or, Bool.or_eq_true]
  exact or_comm

end StagedAlgebra.Table
