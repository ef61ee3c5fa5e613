/-!
# Tables keyed by text

A `Table` holds values under text keys, in ascending order of the keys and each key once. The
order is part of the type, so two tables with the same look-ups are the same table, and a table
is written out and walked through in one way only. Tuples, dictionaries, stores in memory and
shuffled groups are tables.

## Implementation notes

Keys are compared as texts, code point by code point, which is also the order of their UTF-8
bytes.
-/

namespace StagedAlgebra

/-- The keys of a list of entries ascend strictly. -/
def Ascending {β : Type u} (entries : List (String × β)) : Prop :=
  entries.Pairwise fun a b => a.1 < b.1

/-- Values under text keys, in ascending order of the keys. -/
structure Table (β : Type u) where
  /-- The entries, each key once. -/
  entries : List (String × β)
  /-- The keys ascend. -/
  ascending : Ascending entries

namespace Table

variable {β : Type u}

/-- Puts a value under a key of an ascending list, in place of the value that was there. -/
def put (key : String) (value : β) : List (String × β) → List (String × β)
  | [] => [(key, value)]
  | (k, v) :: rest =>
    if key < k then (key, value) :: (k, v) :: rest
    else if k < key then (k, v) :: put key value rest
    else (key, value) :: rest

/-- The value of the first entry with a key. -/
def find? (key : String) : List (String × β) → Option β
  | [] => none
  | (k, v) :: rest => if k = key then some v else find? key rest

/-- Every key after a `put` is the new one or an old one. -/
theorem mem_put {key : String} {value : β} {entries : List (String × β)} {e : String × β}
    (h : e ∈ put key value entries) : e.1 = key ∨ e ∈ entries := by
  induction entries with
  | nil => simp_all [put]
  | cons head rest ih =>
    simp only [put] at h
    split at h
    · simp only [List.mem_cons] at h ⊢
      rcases h with rfl | h
      · exact Or.inl rfl
      · exact Or.inr h
    · split at h
      · simp only [List.mem_cons] at h ⊢
        rcases h with rfl | h
        · exact Or.inr (Or.inl rfl)
        · rcases ih h with h | h
          · exact Or.inl h
          · exact Or.inr (Or.inr h)
      · simp only [List.mem_cons] at h ⊢
        rcases h with rfl | h
        · exact Or.inl rfl
        · exact Or.inr (Or.inr h)

/-- Two texts neither of which comes before the other are equal. -/
theorem eq_of_not_lt {a b : String} (h : ¬ a < b) (h' : ¬ b < a) : a = b :=
  String.le_antisymm (String.not_lt.1 h') (String.not_lt.1 h)

/-- A `put` keeps the keys ascending. -/
theorem ascending_put {key : String} {value : β} {entries : List (String × β)}
    (h : Ascending entries) : Ascending (put key value entries) := by
  induction entries with
  | nil => simp [put, Ascending]
  | cons head rest ih =>
    have h' := List.pairwise_cons.1 h
    simp only [put]
    split
    · rename_i hlt
      refine List.pairwise_cons.2 ⟨?_, h⟩
      intro e he
      simp only [List.mem_cons] at he
      rcases he with rfl | he
      · exact hlt
      · exact String.lt_trans hlt (h'.1 e he)
    · rename_i hnlt
      split
      · rename_i hgt
        refine List.pairwise_cons.2 ⟨?_, ih h'.2⟩
        intro e he
        rcases mem_put he with hk | he
        · exact hk ▸ hgt
        · exact h'.1 e he
      · rename_i hngt
        have hk : key = head.1 := eq_of_not_lt hnlt hngt
        refine List.pairwise_cons.2 ⟨?_, h'.2⟩
        intro e he
        exact hk ▸ h'.1 e he

/-- The table without entries. -/
def empty : Table β :=
  ⟨[], List.Pairwise.nil⟩

instance : Inhabited (Table β) := ⟨empty⟩

/-- A table with a value under a key, in place of the value that was there. -/
def insert (t : Table β) (key : String) (value : β) : Table β :=
  ⟨put key value t.entries, ascending_put t.ascending⟩

/-- The value under a key. -/
def get? (t : Table β) (key : String) : Option β :=
  find? key t.entries

/-- Whether a key is present. -/
def contains (t : Table β) (key : String) : Bool :=
  (t.get? key).isSome

/-- The entries that satisfy a test. -/
def filter (t : Table β) (keep : String → β → Bool) : Table β :=
  ⟨t.entries.filter fun e => keep e.1 e.2, List.Pairwise.filter _ t.ascending⟩

/-- A table without a key. -/
def erase (t : Table β) (key : String) : Table β :=
  t.filter fun k _ => k != key

/-- The keys, ascending. -/
def keys (t : Table β) : List String :=
  t.entries.map (·.1)

/-- The number of entries. -/
def size (t : Table β) : Nat :=
  t.entries.length

/-- The table of a list of entries; of two entries with one key the later one counts. -/
def ofList (entries : List (String × β)) : Table β :=
  entries.foldl (fun t e => t.insert e.1 e.2) empty

/-- Two tables in one; where both hold a key, the second one counts. -/
def union (t u : Table β) : Table β :=
  u.entries.foldl (fun acc e => acc.insert e.1 e.2) t

/-- Tables with the same entries are equal. -/
@[ext] theorem ext {t u : Table β} (h : t.entries = u.entries) : t = u := by
  cases t; cases u; simp_all

instance [DecidableEq β] : DecidableEq (Table β) := fun t u =>
  if h : t.entries = u.entries then isTrue (ext h)
  else isFalse fun heq => h (heq ▸ rfl)

/-- A look-up after a `put`. -/
theorem find?_put {key k : String} {value : β} {entries : List (String × β)}
    (h : Ascending entries) :
    find? k (put key value entries) = if key = k then some value else find? k entries := by
  induction entries with
  | nil => simp [put, find?]
  | cons head rest ih =>
    have h' := List.pairwise_cons.1 h
    simp only [put]
    split
    · rfl
    · rename_i hnlt
      split
      · rename_i hgt
        by_cases hk : head.1 = k
        · have hne : key ≠ k := fun heq => String.lt_irrefl k (by rw [← heq] at hk ⊢; exact hk ▸ hgt)
          simp [find?, hk, hne]
        · simp [find?, hk, ih h'.2]
      · rename_i hngt
        have hk : key = head.1 := eq_of_not_lt hnlt hngt
        by_cases hh : head.1 = k <;> simp [find?, hk, hh]

/-- A look-up after an `insert`. -/
theorem get?_insert (t : Table β) (key k : String) (value : β) :
    (t.insert key value).get? k = if key = k then some value else t.get? k :=
  find?_put t.ascending

/-- A look-up after entries are filtered by their keys. -/
theorem find?_filter (keep : String → Bool) (k : String) (entries : List (String × β)) :
    find? k (entries.filter fun e => keep e.1) = if keep k then find? k entries else none := by
  induction entries with
  | nil => simp [find?]
  | cons head rest ih =>
    by_cases hk : head.1 = k
    · by_cases hkeep : keep k = true
      · simp [find?, hk, hkeep]
      · simp [hk, hkeep, ih]
    · by_cases hkeep : keep head.1 = true
      · simp [find?, hk, hkeep, ih]
      · simp [find?, hk, hkeep, ih]

@[simp] theorem get?_empty (k : String) : (empty : Table β).get? k = none := rfl

end Table

end StagedAlgebra
