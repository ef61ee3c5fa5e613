import Mathlib.Data.List.Nodup
import Mathlib.Data.List.Perm.Basic
import StagedAlgebra.StageGraph

/-!
# Which stages make a graph

Stages make a graph exactly if their numbers are distinct, the root is one of them, and the inputs
of every stage are among those numbered after it. The graph holds the stages in ascending order and
finds each of them by its number; in which order they were given makes no difference, neither to the
graph nor to the fault that is found: `StageGraph.ofStages_settled`.

## Implementation notes

Stages with distinct numbers have one ascending order, so everything that is looked at after sorting
is the same. Where numbers are repeated the order of the stages is not determined, but then no other
fault is looked for.
-/

namespace StagedAlgebra

namespace StepId

theorem lt_iff {a b : StepId} : a < b ↔ a.number.toNat < b.number.toNat :=
  Iff.rfl

theorem le_iff {a b : StepId} : a ≤ b ↔ a.number.toNat ≤ b.number.toNat :=
  Iff.rfl

theorem eq_iff {a b : StepId} : a = b ↔ a.number.toNat = b.number.toNat := by
  cases a
  cases b
  simp [UInt64.toNat_inj]

theorem lt_of_le_of_ne {a b : StepId} (h : a ≤ b) (h' : a ≠ b) : a < b := by
  rw [ne_eq, eq_iff] at h'
  rw [le_iff] at h
  rw [lt_iff]
  omega

theorem eq_of_le_of_le {a b : StepId} (h : a ≤ b) (h' : b ≤ a) : a = b := by
  rw [le_iff] at h h'
  rw [eq_iff]
  omega

theorem lt_trans {a b c : StepId} (h : a < b) (h' : b < c) : a < c := by
  rw [lt_iff] at *
  omega

theorem ne_of_lt {a b : StepId} (h : a < b) : a ≠ b := by
  rintro rfl
  rw [lt_iff] at h
  omega

end StepId

/-- Stages that ascend strictly have distinct numbers. -/
theorem nodup_step_of_ascending {stages : List Stage}
    (h : stages.Pairwise fun a b => a.step < b.step) : (stages.map (·.step)).Nodup := by
  rw [List.Nodup, List.pairwise_map]
  exact h.imp StepId.ne_of_lt

/-- The stages ascend strictly, and every input of a stage is a later one of them. -/
structure ValidStages (stages : List Stage) : Prop where
  ascending : stages.Pairwise fun a b => a.step < b.step
  inputs : ∀ s ∈ stages, ∀ i ∈ s.inputs, s.step < i ∧ ∃ t ∈ stages, t.step = i

namespace ValidStages

theorem tail {s : Stage} {rest : List Stage} (h : ValidStages (s :: rest)) : ValidStages rest := by
  obtain ⟨first, later⟩ := List.pairwise_cons.mp h.ascending
  refine ⟨later, fun t ht i hi => ?_⟩
  obtain ⟨after, u, hu, rfl⟩ := h.inputs t (by simp [ht]) i hi
  refine ⟨after, u, ?_, rfl⟩
  rcases List.mem_cons.mp hu with rfl | hu
  · exact absurd rfl (StepId.ne_of_lt (StepId.lt_trans (first t ht) after))
  · exact hu

theorem steps_nodup {stages : List Stage} (h : ValidStages stages) :
    (stages.map (·.step)).Nodup :=
  nodup_step_of_ascending h.ascending

/-- A stage is found by its number. -/
theorem stageAt?_of_mem {stages : List Stage} (h : ValidStages stages) {s : Stage}
    (hs : s ∈ stages) : stageAt? stages s.step = some s := by
  induction stages with
  | nil => cases hs
  | cons t rest ih =>
      rw [stageAt?, List.find?_cons]
      rcases List.mem_cons.mp hs with rfl | hs
      · simp
      · have apart : t.step ≠ s.step :=
          StepId.ne_of_lt ((List.pairwise_cons.mp h.ascending).1 s hs)
        have other : (t.step == s.step) = false := by simpa using apart
        rw [other]
        exact ih h.tail hs

end ValidStages

theorem mem_of_stageAt? {stages : List Stage} {step : StepId} {s : Stage}
    (h : stageAt? stages step = some s) : s ∈ stages ∧ s.step = step :=
  ⟨List.mem_of_find?_eq_some h, by simpa using List.find?_some h⟩

theorem stageAt?_eq_none {stages : List Stage} {step : StepId}
    (h : ∀ s ∈ stages, s.step ≠ step) : stageAt? stages step = none := by
  simpa [stageAt?] using h

/-- In ascending stages, one stage tells on which side of it a number is to be looked for. -/
theorem stageAt?_append_cons {before after : List Stage} {middle : Stage}
    (h : (before ++ middle :: after).Pairwise fun a b => a.step < b.step) (step : StepId) :
    stageAt? (before ++ middle :: after) step =
      if step < middle.step then stageAt? before step
      else if middle.step < step then stageAt? after step
      else some middle := by
  obtain ⟨-, rest, earlier⟩ := List.pairwise_append.mp h
  have later := (List.pairwise_cons.mp rest).1
  have both : stageAt? (before ++ middle :: after) step =
      (stageAt? before step).or (stageAt? (middle :: after) step) := List.find?_append
  rw [both]
  by_cases below : step < middle.step
  · have none_after : stageAt? (middle :: after) step = none := by
      apply stageAt?_eq_none
      intro s hs equal
      rcases List.mem_cons.mp hs with rfl | hs
      · exact StepId.ne_of_lt below equal.symm
      · exact StepId.ne_of_lt (StepId.lt_trans below (later s hs)) equal.symm
    rw [if_pos below, none_after, Option.or_none]
  · have none_before : stageAt? before step = none := by
      apply stageAt?_eq_none
      intro s hs equal
      exact below (equal ▸ earlier s hs middle (by simp))
    rw [if_neg below, none_before, Option.none_or, stageAt?, List.find?_cons]
    by_cases above : middle.step < step
    · have other : (middle.step == step) = false := by simpa using StepId.ne_of_lt above
      rw [if_pos above, other]
      rfl
    · have equal : middle.step = step := by
        rw [StepId.lt_iff] at below above
        rw [StepId.eq_iff]
        omega
      rw [if_neg above, beq_iff_eq.mpr equal]

theorem stageAt?_of_lt_length {stages : List Stage}
    (h : stages.Pairwise fun a b => a.step < b.step) (step : StepId) {i : Nat}
    (inside : i < stages.length) :
    stageAt? stages step =
      if step < stages[i].step then stageAt? (stages.take i) step
      else if stages[i].step < step then stageAt? (stages.drop (i + 1)) step
      else some stages[i] := by
  have parts : stages.take i ++ stages[i] :: stages.drop (i + 1) = stages := by
    rw [← List.drop_eq_getElem_cons, List.take_append_drop]
  have ascending :
      (stages.take i ++ stages[i] :: stages.drop (i + 1)).Pairwise fun a b => a.step < b.step := by
    rwa [parts]
  calc
    stageAt? stages step = stageAt? (stages.take i ++ stages[i] :: stages.drop (i + 1)) step := by
      rw [parts]
    _ = _ := stageAt?_append_cons ascending step

/-- Halving finds what looking at one stage after another does. -/
theorem bisect?_eq_stageAt? {stages : List Stage}
    (h : stages.Pairwise fun a b => a.step < b.step) (step : StepId) :
    bisect? stages step = stageAt? stages step := by
  fun_induction bisect? stages step with
  | case1 stages _ half inside middle below ih =>
      rw [ih h.take, stageAt?_of_lt_length h step inside, if_pos below]
  | case2 stages _ half inside middle not_below above ih =>
      rw [ih h.drop, stageAt?_of_lt_length h step inside, if_neg not_below, if_pos above]
  | case3 stages _ half inside middle not_below not_above =>
      rw [stageAt?_of_lt_length h step inside, if_neg not_below, if_neg not_above]
  | case4 stages empty =>
      rw [List.length_eq_zero_iff.mp (not_not.mp empty)]
      rfl

theorem pairwise_lt_of_not_repeated {stages : List Stage}
    (sorted : stages.Pairwise fun a b => a.step ≤ b.step) (h : hasRepeatedStep stages = false) :
    stages.Pairwise fun a b => a.step < b.step := by
  induction stages with
  | nil => exact List.Pairwise.nil
  | cons a rest ih =>
      obtain ⟨least, others⟩ := List.pairwise_cons.mp sorted
      cases rest with
      | nil => exact List.pairwise_singleton _ _
      | cons b rest =>
          simp only [hasRepeatedStep, Bool.or_eq_false_iff, beq_eq_false_iff_ne] at h
          have later := ih others h.2
          have first : a.step < b.step := StepId.lt_of_le_of_ne (least b (by simp)) h.1
          refine List.pairwise_cons.mpr ⟨fun c hc => ?_, later⟩
          rcases List.mem_cons.mp hc with rfl | hc
          · exact first
          · exact StepId.lt_trans first ((List.pairwise_cons.mp later).1 c hc)

namespace StageGraph

/-- The stages are valid and the root is one of them. -/
structure Valid (g : StageGraph) : Prop where
  stages : ValidStages g.stages
  root : ∃ s, g.stage? g.root = some s

/-- Stages in ascending order of their numbers. -/
def inOrder (stages : List Stage) : List Stage :=
  stages.mergeSort fun a b => decide (a.step ≤ b.step)

theorem inOrder_perm (stages : List Stage) : (inOrder stages).Perm stages :=
  List.mergeSort_perm _ _

theorem pairwise_inOrder (stages : List Stage) :
    (inOrder stages).Pairwise fun a b => a.step ≤ b.step := by
  have ordered : (inOrder stages).Pairwise fun a b => decide (a.step ≤ b.step) = true := by
    apply List.pairwise_mergeSort
    · intro a b c
      simp only [decide_eq_true_eq, StepId.le_iff]
      omega
    · intro a b
      simp only [Bool.or_eq_true, decide_eq_true_eq, StepId.le_iff]
      omega
  exact ordered.imp (by simp)

theorem ofStages_eq (root : StepId) (stages : List Stage) :
    ofStages root stages =
      match graphFault? root (inOrder stages) with
      | some fault => .error fault
      | none => .ok ⟨root, inOrder stages⟩ :=
  rfl

/-- The inputs of a stage without fault are stages that are numbered after it. -/
theorem inputs_of_inputFault? {stages : List Stage} {s : Stage}
    (h : inputFault? stages s = none) :
    ∀ i ∈ s.inputs, s.step < i ∧ ∃ t ∈ stages, t.step = i := by
  intro i hi
  unfold inputFault? at h
  split at h
  · cases h
  rename_i known
  have found := List.find?_eq_none.mp known i hi
  simp only [Option.map_eq_none_iff, List.find?_eq_none, decide_eq_true_eq] at h
  have after := h i hi
  constructor
  · rw [StepId.lt_iff]
    rw [StepId.le_iff] at after
    omega
  · cases stage : stageAt? stages i with
    | none => simp [stage] at found
    | some t => exact ⟨t, (mem_of_stageAt? stage).1, (mem_of_stageAt? stage).2⟩

/-- A graph that is made of stages is valid and has exactly these stages. -/
theorem valid_of_ofStages {root : StepId} {stages : List Stage} {g : StageGraph}
    (h : ofStages root stages = .ok g) : g.Valid ∧ g.root = root ∧ g.stages.Perm stages := by
  have permuted := inOrder_perm stages
  have ordered := pairwise_inOrder stages
  rw [ofStages_eq] at h
  generalize inOrder stages = sorted at h permuted ordered
  split at h
  · cases h
  rename_i faultless
  cases h
  unfold graphFault? at faultless
  split at faultless
  · cases faultless
  rename_i distinct
  split at faultless
  · cases faultless
  rename_i rooted
  refine ⟨⟨⟨pairwise_lt_of_not_repeated ordered (by simpa using distinct), ?_⟩, ?_⟩, rfl, permuted⟩
  · intro s hs
    exact inputs_of_inputFault? (List.findSome?_eq_none_iff.mp faultless s hs)
  · cases stage : stageAt? sorted root with
    | none => simp [stage] at rooted
    | some t => exact ⟨t, stage⟩

theorem hasRepeatedStep_of_nodup {stages : List Stage} (h : (stages.map (·.step)).Nodup) :
    hasRepeatedStep stages = false := by
  induction stages with
  | nil => rfl
  | cons a rest ih =>
      obtain ⟨first, others⟩ := List.nodup_cons.mp h
      cases rest with
      | nil => rfl
      | cons b rest =>
          simp only [hasRepeatedStep, Bool.or_eq_false_iff, beq_eq_false_iff_ne]
          exact ⟨fun equal => first (by simp [equal]), ih others⟩

theorem isSome_stageAt? {stages : List Stage} {step : StepId}
    (h : step ∈ stages.map (·.step)) : (stageAt? stages step).isSome = true := by
  obtain ⟨s, hs, rfl⟩ := List.mem_map.mp h
  exact List.find?_isSome.mpr ⟨s, hs, by simp⟩

theorem inputFault?_eq_none {stages : List Stage} {s : Stage}
    (h : ∀ i ∈ s.inputs, s.step < i ∧ i ∈ stages.map (·.step)) :
    inputFault? stages s = none := by
  have known : (s.inputs.find? fun i => (stageAt? stages i).isNone) = none := by
    refine List.find?_eq_none.mpr fun i hi => ?_
    simp [Option.isNone_iff_eq_none, Option.isSome_iff_ne_none.mp (isSome_stageAt? (h i hi).2)]
  have later : (s.inputs.find? fun i => decide (i ≤ s.step)) = none := by
    refine List.find?_eq_none.mpr fun i hi => ?_
    have after := StepId.lt_iff.mp (h i hi).1
    rw [decide_eq_true_eq, StepId.le_iff]
    omega
  simp [inputFault?, known, later]

/-- Stages with distinct numbers, one of them the root and every input among the later ones, make a
graph. -/
theorem exists_ofStages {root : StepId} {stages : List Stage}
    (distinct : (stages.map (·.step)).Nodup) (rooted : root ∈ stages.map (·.step))
    (inputs : ∀ s ∈ stages, ∀ i ∈ s.inputs, s.step < i ∧ i ∈ stages.map (·.step)) :
    ∃ g, ofStages root stages = .ok g := by
  have permuted := inOrder_perm stages
  rw [ofStages_eq]
  generalize inOrder stages = sorted at permuted
  have same : ∀ step, step ∈ sorted.map (·.step) ↔ step ∈ stages.map (·.step) := fun step =>
    (permuted.map _).mem_iff
  have apart : hasRepeatedStep sorted = false :=
    hasRepeatedStep_of_nodup ((permuted.map _).nodup_iff.mpr distinct)
  have found := Option.isSome_iff_ne_none.mp (isSome_stageAt? ((same root).mpr rooted))
  have faultless : sorted.findSome? (inputFault? sorted) = none := by
    refine List.findSome?_eq_none_iff.mpr fun s hs => inputFault?_eq_none fun i hi => ?_
    rw [same]
    exact inputs s (permuted.mem_iff.mp hs) i hi
  exact ⟨⟨root, sorted⟩, by simp [graphFault?, apart, found, faultless]⟩

variable {root : StepId} {stages others : List Stage}

/-- Repeated numbers are neighbours once the stages are in order. -/
theorem hasRepeatedStep_inOrder (h : ¬ (stages.map (·.step)).Nodup) :
    hasRepeatedStep (inOrder stages) = true := by
  by_contra unnoticed
  apply h
  have ascending := pairwise_lt_of_not_repeated (pairwise_inOrder stages)
    (Bool.not_eq_true _ ▸ unnoticed)
  exact ((inOrder_perm stages).map _).nodup_iff.mp (nodup_step_of_ascending ascending)

theorem ofStages_of_repeated (root : StepId) (h : ¬ (stages.map (·.step)).Nodup) :
    ofStages root stages = .error .repeatedStep := by
  simp only [ofStages_eq, graphFault?, hasRepeatedStep_inOrder h, if_true]

/-- Stages with distinct numbers have one ascending order. -/
theorem inOrder_eq_of_perm (distinct : (stages.map (·.step)).Nodup) (same : others.Perm stages) :
    inOrder others = inOrder stages := by
  refine List.Perm.eq_of_pairwise ?_ (pairwise_inOrder others) (pairwise_inOrder stages) ?_
  · intro s t hs ht le ge
    have member : s ∈ stages := same.mem_iff.mp ((inOrder_perm others).mem_iff.mp hs)
    have member' : t ∈ stages := (inOrder_perm stages).mem_iff.mp ht
    exact List.inj_on_of_nodup_map distinct member member' (StepId.eq_of_le_of_le le ge)
  · exact (inOrder_perm others).trans (same.trans (inOrder_perm stages).symm)

/-- The order in which stages are given makes no difference to the graph or to the fault. -/
theorem ofStages_eq_of_perm (root : StepId) (same : others.Perm stages) :
    ofStages root others = ofStages root stages := by
  by_cases distinct : (stages.map (·.step)).Nodup
  · rw [ofStages_eq, ofStages_eq, inOrder_eq_of_perm distinct same]
  · have repeated : ¬ (others.map (·.step)).Nodup := by
      rwa [(same.map _).nodup_iff]
    rw [ofStages_of_repeated root distinct, ofStages_of_repeated root repeated]

/-- Stages that ascend and have no fault are those of the graph, in whatever order they come. -/
theorem ofStages_of_faultless (ascending : stages.Pairwise fun a b => a.step ≤ b.step)
    (faultless : graphFault? root stages = none) (same : others.Perm stages) :
    ofStages root others = .ok ⟨root, stages⟩ := by
  have sorted : inOrder stages = stages :=
    List.mergeSort_of_pairwise (ascending.imp fun h => decide_eq_true h)
  simp only [ofStages_eq_of_perm root same, ofStages_eq, sorted, faultless]

/-- What stages have to be like to make a graph with a root. -/
structure MakeGraph (root : StepId) (stages : List Stage) : Prop where
  /-- No two stages have one number. -/
  distinct : (stages.map (·.step)).Nodup
  /-- The root is a stage. -/
  rooted : root ∈ stages.map (·.step)
  /-- The inputs of a stage are stages that are numbered after it. -/
  inputs : ∀ s ∈ stages, ∀ i ∈ s.inputs, i ∈ stages.map (·.step) ∧ s.step < i

theorem exists_ofStages_iff : (∃ g, ofStages root stages = .ok g) ↔ MakeGraph root stages := by
  constructor
  · rintro ⟨g, made⟩
    obtain ⟨valid, rfl, same⟩ := valid_of_ofStages made
    have known {step : StepId} : (∃ t ∈ g.stages, t.step = step) ↔ step ∈ stages.map (·.step) := by
      rw [← List.mem_map, (same.map _).mem_iff]
    refine ⟨(same.map _).nodup_iff.mp valid.stages.steps_nodup, ?_, fun s hs i hi => ?_⟩
    · obtain ⟨s, found⟩ := valid.root
      exact known.mp ⟨s, mem_of_stageAt? found⟩
    · obtain ⟨later, found⟩ := valid.stages.inputs s (same.mem_iff.mpr hs) i hi
      exact ⟨known.mp found, later⟩
  · intro h
    apply exists_ofStages h.distinct h.rooted
    intro s hs i hi
    exact (h.inputs s hs i hi).symm

/-- The stages of a valid graph are found by their numbers, and nothing else is. -/
theorem Valid.stage?_eq_some_iff {g : StageGraph} (h : g.Valid) {step : StepId} {s : Stage} :
    g.stage? step = some s ↔ s ∈ g.stages ∧ s.step = step := by
  constructor
  · exact mem_of_stageAt?
  · rintro ⟨member, rfl⟩
    exact h.stages.stageAt?_of_mem member

/-- No graph that is read from a text escapes the checks. -/
theorem valid_of_parse {s : String} {g : StageGraph} (h : parse s = .ok g) : g.Valid := by
  unfold parse at h
  split at h
  · exact (valid_of_ofStages h).1
  · cases h

/-- Stages make a graph exactly if their numbers are distinct, the root is one of them, and every
input of a stage is one of them and after the stage's own. The graph has these stages in ascending
order, and finds under each number the stage that has it, whether it looks at one stage after
another or halves them. Given in another order, the stages make the same graph or have the same
fault. -/
theorem ofStages_settled (root : StepId) (stages : List Stage) :
    ((∃ g, ofStages root stages = .ok g) ↔ MakeGraph root stages) ∧
      (∀ g, ofStages root stages = .ok g →
        g.root = root ∧ g.stages.Perm stages ∧ (g.stages.Pairwise fun s t => s.step < t.step) ∧
          (∀ step s, g.stage? step = some s ↔ s ∈ stages ∧ s.step = step) ∧
          ∀ step, bisect? g.stages step = g.stage? step) ∧
      ∀ others, others.Perm stages → ofStages root others = ofStages root stages := by
  refine ⟨exists_ofStages_iff, fun g made => ?_, fun others => ofStages_eq_of_perm root⟩
  obtain ⟨valid, rooted, same⟩ := valid_of_ofStages made
  have ascending := valid.stages.ascending
  refine ⟨rooted, same, ascending, fun step s => ?_, bisect?_eq_stageAt? ascending⟩
  rw [valid.stage?_eq_some_iff, same.mem_iff]

/-- Three stages make one graph in either order. Two stages with one number make none, and have one
fault in either order although they cannot be sorted in one way only. -/
theorem ofStages_settled_shuffled :
    let people : Stage := ⟨⟨7⟩, .scan "Person", "Person", []⟩
    let guests : Stage := ⟨⟨2⟩, .rename "X", "X", [⟨7⟩]⟩
    let hosts : Stage := ⟨⟨1⟩, .rename "Y", "Y", [⟨2⟩, ⟨7⟩]⟩
    let others : Stage := ⟨⟨7⟩, .scan "Eats", "Eats", []⟩
    (∃ g, ofStages ⟨1⟩ [guests, people, hosts] = .ok g ∧ g.stage? ⟨2⟩ = some guests) ∧
      ofStages ⟨1⟩ [people, hosts, guests] = ofStages ⟨1⟩ [guests, people, hosts] ∧
      ofStages ⟨7⟩ [people, others] = .error .repeatedStep ∧
      ofStages ⟨7⟩ [others, people] = ofStages ⟨7⟩ [people, others] := by
  intro people guests hosts others
  obtain ⟨accepted, graph, reordered⟩ := ofStages_settled ⟨1⟩ [guests, people, hosts]
  have suited : MakeGraph ⟨1⟩ [guests, people, hosts] := ⟨by decide, by decide, by decide⟩
  refine ⟨?_, reordered _ (by decide), ofStages_of_repeated _ (by decide), ?_⟩
  · obtain ⟨g, made⟩ := accepted.mpr suited
    exact ⟨g, made, ((graph g made).2.2.2.1 ⟨2⟩ guests).mpr ⟨by simp, rfl⟩⟩
  · exact (ofStages_settled ⟨7⟩ [people, others]).2.2 _ (by decide)

end StageGraph

end StagedAlgebra
