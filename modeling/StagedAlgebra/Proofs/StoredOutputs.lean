import StagedAlgebra.Storage.RecordStore
import StagedAlgebra.Proofs.RecordCodec

/-!
# Outputs in memory

The output of a step is kept at one path of its own: no object is at or below the paths of two
steps, however their numbers are written. In memory, storing an output therefore replaces
whatever was at or below its path, reads back as the records that were stored, and changes
nothing elsewhere.

## Implementation notes

What an operation reads is stated as a congruence (`readOutput_congr`): tables that agree at and
below a path give the same output. What a store does to the table is one lemma,
`exists_writeOutput`; nothing later opens the storage.
-/

namespace StagedAlgebra

theorem Table.get?_filter_key {β : Type u} (t : Table β) (keep : String → Bool) (k : String) :
    (t.filter fun key _ => keep key).get? k = if keep k then t.get? k else none :=
  find?_filter keep k t.entries

theorem isAtOrBelow_iff {path key : String} :
    isAtOrBelow path key = true ↔
      key = path ∨ ∃ rest, key.toList = path.toList ++ '/' :: rest := by
  simp only [isAtOrBelow, isBelow, Bool.or_eq_true, beq_iff_eq, List.isPrefixOf_iff_prefix]
  refine or_congr Iff.rfl ⟨?_, ?_⟩
  · rintro ⟨rest, h⟩
    exact ⟨rest, by simp [← h]⟩
  · rintro ⟨rest, h⟩
    exact ⟨rest, by simp [h]⟩

theorem isAtOrBelow_of_isBelow {path key : String} (h : isBelow path key = true) :
    isAtOrBelow path key = true := by
  simp [isAtOrBelow, h]

/-- A key is at or below at most one path without slashes. -/
theorem eq_of_isAtOrBelow {p q key : String} (hp : '/' ∉ p.toList) (hq : '/' ∉ q.toList)
    (h : isAtOrBelow p key = true) (h' : isAtOrBelow q key = true) : p = q := by
  have split {path : String} (slash : '/' ∉ path.toList)
      (at_or_below : isAtOrBelow path key = true) :
      (Text.splitOnce '/' key.toList).elim key.toList (·.1) = path.toList := by
    rcases isAtOrBelow_iff.mp at_or_below with rfl | ⟨rest, chars⟩
    · rw [Text.splitOnce_eq_none.mpr slash]
      rfl
    · rw [chars, Text.splitOnce_append slash]
      rfl
  exact String.toList_inj.mp ((split hp h).symm.trans (split hq h'))

theorem trimEndOf_of_getLast {c d : Char} {s : String} {front : List Char}
    (h : s.toList = front ++ [d]) (other : d ≠ c) : Text.trimEndOf c s = s := by
  rw [Text.trimEndOf, h, List.reverse_append, List.reverse_singleton, List.singleton_append,
    List.dropWhile_cons_of_neg (by simpa using other), List.reverse_cons, List.reverse_reverse, ← h,
    String.ofList_toList]

theorem trimEndOf_of_not_mem {c : Char} {s : String} (h : c ∉ s.toList) :
    Text.trimEndOf c s = s := by
  rcases List.eq_nil_or_concat s.toList with empty | ⟨front, last, chars⟩
  · rw [Text.trimEndOf, empty]
    simpa using (String.toList_inj.mp (by simp [empty])).symm
  · rw [List.concat_eq_append] at chars
    apply trimEndOf_of_getLast chars
    rintro rfl
    simp [chars] at h

theorem exists_toList_outputPath (environment : Environment) :
    ∃ ending, '/' ∉ ending ∧ ∀ s : StepId, (outputPath environment s).toList =
      't' :: 'm' :: 'p' :: (Text.natChars s.number.toNat ++ ending) := by
  cases environment with
  | distributed => exact ⟨[], by simp, fun s => by simp [outputPath, StepId.digits]⟩
  | standalone | mock =>
      exact ⟨['.', 't', 'm', 'p'], by decide, fun s => by simp [outputPath, StepId.digits]⟩

theorem slash_not_mem_outputPath (environment : Environment) (step : StepId) :
    '/' ∉ (outputPath environment step).toList := by
  obtain ⟨ending, slash, chars⟩ := exists_toList_outputPath environment
  have digits : '/' ∉ Text.natChars step.number.toNat :=
    fun h => absurd (Text.isDigit_of_mem_natChars h) (by decide)
  rw [chars]
  simp [slash, digits]

/-- Steps with one path have one number. -/
theorem outputPath_injective {environment : Environment} {s t : StepId}
    (h : outputPath environment s = outputPath environment t) : s = t := by
  obtain ⟨ending, -, chars⟩ := exists_toList_outputPath environment
  have lists := congrArg String.toList h
  rw [chars, chars] at lists
  simp only [List.cons.injEq, true_and, List.append_cancel_right_eq] at lists
  have numbers := UInt64.toNat_inj.mp (Text.natChars_injective lists)
  cases s
  cases t
  exact congrArg StepId.mk numbers

/-- No object belongs to the outputs of two steps. -/
theorem step_eq_of_isAtOrBelow {environment : Environment} {s t : StepId} {key : String}
    (h : isAtOrBelow (outputPath environment s) key = true)
    (h' : isAtOrBelow (outputPath environment t) key = true) : s = t :=
  outputPath_injective (eq_of_isAtOrBelow (slash_not_mem_outputPath _ _)
    (slash_not_mem_outputPath _ _) h h')

theorem trimEndOf_outputPath (environment : Environment) (step : StepId) :
    Text.trimEndOf '/' (outputPath environment step) = outputPath environment step :=
  trimEndOf_of_not_mem (slash_not_mem_outputPath _ _)

namespace Storage

theorem list_below (objects : Table ByteArray) (path : String) :
    (memory objects).list (path ++ "/") = objects.keys.filter (isBelow path) := by
  simp only [list, String.toList_append]
  rfl

theorem filter_keys_congr {objects objects' : Table ByteArray} {p : String → Bool}
    (h : ∀ key, p key = true → objects'.get? key = objects.get? key) :
    objects'.keys.filter p = objects.keys.filter p := by
  apply Table.eq_of_pairwise_lt (objects'.keys_pairwise.filter _) (objects.keys_pairwise.filter _)
  intro key
  rw [List.mem_filter, List.mem_filter, Table.mem_keys_iff, Table.mem_keys_iff]
  exact and_congr_left fun inside => by rw [h key inside]

theorem readParts_congr {s s' : Storage} {paths : List String}
    (h : ∀ path ∈ paths, s'.read path = s.read path) : s'.readParts paths = s.readParts paths := by
  induction paths with
  | nil => rfl
  | cons path rest ih =>
      rw [readParts, readParts, h path (by simp), ih fun p hp => h p (by simp [hp])]

theorem read_congr {objects objects' : Table ByteArray} {path : String}
    (h : objects'.get? path = objects.get? path) :
    (memory objects').read path = (memory objects).read path := by
  simp only [read, h]

theorem contains_outputPath (objects : Table ByteArray) (environment : Environment)
    (step : StepId) :
    (memory objects).contains (outputPath environment step) =
      !(objects.keys.filter (isAtOrBelow (outputPath environment step))).isEmpty := by
  rw [contains, trimEndOf_outputPath, Bool.eq_iff_iff]
  simp

/-- An output depends on what is at and below its path. -/
theorem readOutput_congr {objects objects' : Table ByteArray} {environment : Environment}
    {step : StepId}
    (h : ∀ key, isAtOrBelow (outputPath environment step) key = true →
      objects'.get? key = objects.get? key) :
    (memory objects').readOutput environment step =
      (memory objects).readOutput environment step := by
  have stands : isAtOrBelow (outputPath environment step) (outputPath environment step) = true :=
    isAtOrBelow_iff.mpr (.inl rfl)
  cases environment with
  | standalone | mock =>
      simp only [readOutput]
      apply readParts_congr
      intro path member
      rw [List.mem_singleton.mp member]
      exact read_congr (h _ stands)
  | distributed =>
      have below := filter_keys_congr (p := isBelow (outputPath .distributed step))
        fun key inside => h key (isAtOrBelow_of_isBelow inside)
      have any : (memory objects').contains (outputPath .distributed step) =
          (memory objects).contains (outputPath .distributed step) := by
        rw [contains_outputPath, contains_outputPath, filter_keys_congr h]
      simp only [readOutput, list_below, any, below]
      congr 1
      apply readParts_congr
      intro path member
      exact read_congr (h _ (isAtOrBelow_of_isBelow (List.mem_filter.mp member).2))

theorem readRelation_congr {objects objects' : Table ByteArray} {relation : String}
    (h : objects'.get? (relationPath relation) = objects.get? (relationPath relation)) :
    (memory objects').readRelation relation = (memory objects).readRelation relation := by
  simp only [readRelation, read_congr h]

theorem fitsLine_of_readRelation {storage : Storage} {relation : String} {records : List Record}
    (h : storage.readRelation relation = .ok records) : ∀ r ∈ records, FitsLine r.label := by
  unfold readRelation at h
  split at h
  · cases h
  · exact fitsLine_of_decodeRecords h

/-- A relation that can be read is there. -/
theorem contains_of_readRelation {objects : Table ByteArray} {relation : String}
    {records : List Record} (h : (memory objects).readRelation relation = .ok records) :
    (memory objects).contains (relationPath relation) = true := by
  have found : (objects.get? (relationPath relation)).isSome := by
    simp only [readRelation, read] at h
    cases stored : objects.get? (relationPath relation) with
    | none => simp [stored] at h
    | some content => rfl
  have chars : (relationPath relation).toList =
      (relation.toList ++ ['.', 'j', 's', 'o']) ++ ['n'] := by
    simp [relationPath]
  rw [contains, trimEndOf_of_getLast chars (by decide), List.any_eq_true]
  exact ⟨_, Table.mem_keys_iff.mpr found, isAtOrBelow_iff.mpr (.inl rfl)⟩

theorem readRelation_of_get? {objects : Table ByteArray} {relation : String}
    {records : List Record}
    (stored : objects.get? (relationPath relation) = some (encodeRecords records))
    (fits : ∀ r ∈ records, FitsLine r.label) (back : ∀ r ∈ records, r.ReadsBack) :
    (memory objects).readRelation relation = .ok records := by
  simp only [readRelation, read, stored, decodeRecords_encodeRecords _ fits back]

theorem readParts_of_read {s : Storage} {path : String} {content : ByteArray}
    (h : s.read path = .ok content) : s.readParts [path] = decodeRecords path content := by
  simp only [readParts, h]
  cases decodeRecords path content <;> simp [Except.map]

theorem readParts_singleton {objects : Table ByteArray} {path : String}
    {records : List Record} (stored : objects.get? path = some (encodeRecords records))
    (fits : ∀ r ∈ records, FitsLine r.label) (back : ∀ r ∈ records, r.ReadsBack) :
    (memory objects).readParts [path] = .ok records := by
  have found : (memory objects).read path = .ok (encodeRecords records) := by
    simp only [read, stored]
  rw [readParts_of_read found, decodeRecords_encodeRecords path fits back]

theorem isBelow_partPath (path : String) (index : Nat) :
    isBelow path (partPath path index) = true := by
  rw [isBelow, List.isPrefixOf_iff_prefix]
  exact ⟨['p', 'a', 'r', 't', '-'] ++ Text.padLeft '0' 5 (Text.natChars index), by simp [partPath]⟩

/-- If a part is the only object at or below the path of an output, it is the output. -/
theorem readOutput_of_only_part {objects : Table ByteArray} {step : StepId}
    (only : ∀ key, isAtOrBelow (outputPath .distributed step) key = true →
      (key ∈ objects.keys ↔ key = partPath (outputPath .distributed step) 0)) :
    (memory objects).readOutput .distributed step =
      (memory objects).readParts [partPath (outputPath .distributed step) 0] := by
  have part := isBelow_partPath (outputPath .distributed step) 0
  have listed : objects.keys.filter (isBelow (outputPath .distributed step)) =
      [partPath (outputPath .distributed step) 0] := by
    apply Table.eq_of_pairwise_lt (objects.keys_pairwise.filter _) (by simp)
    intro key
    rw [List.mem_filter, List.mem_singleton]
    constructor
    · rintro ⟨member, inside⟩
      exact (only key (isAtOrBelow_of_isBelow inside)).mp member
    · rintro rfl
      exact ⟨(only _ (isAtOrBelow_of_isBelow part)).mpr rfl, part⟩
  have any : (memory objects).contains (outputPath .distributed step) = true := by
    rw [contains_outputPath]
    simp only [Bool.not_eq_true', List.isEmpty_eq_false_iff_exists_mem, List.mem_filter]
    exact ⟨_, (only _ (isAtOrBelow_of_isBelow part)).mpr rfl, isAtOrBelow_of_isBelow part⟩
  simp only [readOutput, any, if_true, list_below, listed]

/-- Storing an output succeeds, changes nothing that is not at or below its path, and is read
back. -/
theorem exists_writeOutput (objects : Table ByteArray) (environment : Environment) (step : StepId)
    (records : List Record) :
    ∃ objects', (memory objects).writeOutput environment step records =
        (.ok (outputPath environment step), memory objects') ∧
      (∀ key, isAtOrBelow (outputPath environment step) key = false →
        objects'.get? key = objects.get? key) ∧
      ((∀ r ∈ records, FitsLine r.label) → (∀ r ∈ records, r.ReadsBack) →
        (memory objects').readOutput environment step = .ok records) := by
  cases environment with
  | standalone | mock =>
      refine ⟨objects.insert _ (encodeRecords records), rfl, fun key apart => ?_,
        fun fits back => ?_⟩
      · rw [Table.get?_insert, if_neg]
        rintro rfl
        rw [isAtOrBelow_iff.mpr (.inl rfl)] at apart
        cases apart
      · exact readParts_singleton (by simp [Table.get?_insert]) fits back
  | distributed =>
      have part := isBelow_partPath (outputPath .distributed step) 0
      refine ⟨(objects.filter fun key _ => !isAtOrBelow (outputPath .distributed step) key).insert
        (partPath (outputPath .distributed step) 0) (encodeRecords records), ?_,
        fun key apart => ?_, fun fits back => ?_⟩
      · simp only [writeOutput, delete, write, trimEndOf_outputPath]
        rfl
      · have other : partPath (outputPath .distributed step) 0 ≠ key := by
          rintro rfl
          rw [isAtOrBelow_of_isBelow part] at apart
          cases apart
        rw [Table.get?_insert, if_neg other,
          Table.get?_filter_key _ fun key => !isAtOrBelow (outputPath .distributed step) key]
        simp [apart]
      · rw [readOutput_of_only_part]
        · exact readParts_singleton (by simp [Table.get?_insert]) fits back
        intro key inside
        rw [Table.mem_keys_insert, Table.mem_keys_iff,
          Table.get?_filter_key _ fun key => !isAtOrBelow (outputPath .distributed step) key]
        simp [inside]

end Storage

end StagedAlgebra
