import Mathlib.Data.List.Chain
import Mathlib.Order.Bounds.Basic
import StagedAlgebra.Proofs.RecordFlow

/-!
# Waves as early as they can be

The waves of a graph are a schedule with barriers between its parts: every step is in one wave, the
steps of a wave ascend, and every input of a stage is in an earlier wave. No such schedule could
have a stage earlier, because a stage is in the wave that is numbered by the longest path of inputs
below it. In the graph of a plan the first wave is made of the scans, and the last one of the root.

## Implementation notes

Layers are found in one pass from the last stage to the first, and an input that has no layer yet
would be passed over without notice. `exists_lower_layer` and `exists_input_layer` say that this
does not happen in a valid graph: the layer of a stage is above those of all its inputs, and is the
next one after that of some input, unless it is the lowest. All that follows is drawn from these
two and from the number of waves.
-/

namespace StagedAlgebra

namespace StageGraph

variable {stages : List Stage} {g : StageGraph}

theorem foldl_max_eq_zero_or_mem (xs : List Nat) :
    xs.foldl max 0 = 0 ∨ xs.foldl max 0 ∈ xs := by
  rw [List.foldl_max]
  cases greatest : xs.max? with
  | none => exact .inl rfl
  | some n =>
      right
      rw [Option.getD_some, Nat.zero_max]
      exact List.max?_mem greatest

theorem exists_layer {s : Stage} (hs : s ∈ stages) : ∃ layer, (s.step, layer) ∈ layersOf stages := by
  have known : s.step ∈ (layersOf stages).map (·.1) := by
    rw [map_fst_layersOf]
    exact List.mem_map.mpr ⟨s, hs, rfl⟩
  obtain ⟨layer, -, member⟩ := exists_lookup_of_mem known
  exact ⟨layer, member⟩

theorem exists_stage_of_layer {step : StepId} {layer : Nat}
    (h : (step, layer) ∈ layersOf stages) : ∃ s ∈ stages, s.step = step := by
  have known : step ∈ stages.map (·.step) := by
    rw [← map_fst_layersOf]
    exact List.mem_map.mpr ⟨_, h, rfl⟩
  exact List.mem_map.mp known

/-- A layer that is not the lowest comes right after that of an input. -/
theorem exists_input_of_layerAfter {layers : List (StepId × Nat)} {s : Stage} {layer : Nat}
    (h : layerAfter layers s = layer + 1) : ∃ i ∈ s.inputs, (i, layer) ∈ layers := by
  have attained := foldl_max_eq_zero_or_mem
    ((s.inputs.filterMap fun i => layers.lookup i).map (· + 1))
  rw [← layerAfter, h] at attained
  obtain ⟨low, found, equal⟩ := List.mem_map.mp (attained.resolve_left (Nat.succ_ne_zero layer))
  obtain ⟨i, hi, lookup⟩ := List.mem_filterMap.mp found
  obtain ⟨before, after, split, -⟩ := List.lookup_eq_some_iff.mp lookup
  refine ⟨i, hi, ?_⟩
  rw [split, ← Nat.succ.inj equal]
  simp

/-- Above the lowest layer, a stage has an input in the layer right below. -/
theorem exists_input_layer (h : ValidStages stages) {s : Stage} (hs : s ∈ stages) {layer : Nat}
    (member : (s.step, layer + 1) ∈ layersOf stages) :
    ∃ i ∈ s.inputs, (i, layer) ∈ layersOf stages := by
  induction stages with
  | nil => cases hs
  | cons t rest ih =>
      rcases List.mem_cons.mp hs with rfl | hs
      · have own : (s.step, layerAfter (layersOf rest) s) ∈ layersOf (s :: rest) := by
          simp [layersOf]
        obtain ⟨i, hi, below⟩ := exists_input_of_layerAfter (layer_unique h own member)
        exact ⟨i, hi, List.mem_cons_of_mem _ below⟩
      · obtain ⟨own, found⟩ := exists_layer hs
        have same : own = layer + 1 := layer_unique h (List.mem_cons_of_mem _ found) member
        obtain ⟨i, hi, below⟩ := ih h.tail hs (same ▸ found)
        exact ⟨i, hi, List.mem_cons_of_mem _ below⟩

/-- There is no gap between layers. -/
theorem exists_step_of_layer_le (h : ValidStages stages) {step : StepId} {high low : Nat}
    (member : (step, high) ∈ layersOf stages) (le : low ≤ high) :
    ∃ other, (other, low) ∈ layersOf stages := by
  induction high generalizing step with
  | zero =>
      obtain rfl := Nat.le_zero.mp le
      exact ⟨step, member⟩
  | succ high ih =>
      by_cases top : low = high + 1
      · exact ⟨step, top ▸ member⟩
      · obtain ⟨s, hs, rfl⟩ := exists_stage_of_layer member
        obtain ⟨i, -, below⟩ := exists_input_layer h hs member
        exact ih below (by omega)

/-- There are as many waves as layers in use. -/
theorem exists_count (h : ValidStages g.stages) :
    ∃ count, g.waves = (List.range count).map (wave g.stages) ∧
      ∀ layer, layer < count ↔ ∃ step, (step, layer) ∈ layersOf g.stages := by
  refine ⟨_, rfl, fun layer => ⟨fun less => ?_, ?_⟩⟩
  · have attained := foldl_max_eq_zero_or_mem ((layersOf g.stages).map (·.2 + 1))
    obtain ⟨⟨step, high⟩, member, equal⟩ := List.mem_map.mp
      (attained.resolve_left (Nat.ne_zero_of_lt less))
    rw [← equal] at less
    exact exists_step_of_layer_le h member (Nat.le_of_lt_succ less)
  · rintro ⟨step, member⟩
    apply Nat.lt_of_succ_le
    apply le_foldl_max
    right
    exact List.mem_map.mpr ⟨_, member, rfl⟩

/-- A stage takes its records from another one. -/
def TakesFrom (stages : List Stage) (step input : StepId) : Prop :=
  ∃ s ∈ stages, s.step = step ∧ input ∈ s.inputs

/-- The lengths of the paths that lead from a step to inputs of inputs. -/
def pathLengths (stages : List Stage) (step : StepId) : Set Nat :=
  {n | ∃ path : List StepId, path.length = n ∧ (step :: path).IsChain (TakesFrom stages)}

theorem TakesFrom.layer_lt (h : ValidStages stages) {step input : StepId} {high low : Nat}
    (takes : TakesFrom stages step input) (above : (step, high) ∈ layersOf stages)
    (below : (input, low) ∈ layersOf stages) : low < high := by
  obtain ⟨s, hs, rfl, hi⟩ := takes
  obtain ⟨high', low', above', below', less⟩ := exists_lower_layer h hs hi
  rwa [layer_unique h above above', layer_unique h below below']

theorem mem_pathLengths (h : ValidStages stages) {step : StepId} {layer : Nat}
    (member : (step, layer) ∈ layersOf stages) : layer ∈ pathLengths stages step := by
  induction layer generalizing step with
  | zero => exact ⟨[], rfl, .singleton step⟩
  | succ layer ih =>
      obtain ⟨s, hs, rfl⟩ := exists_stage_of_layer member
      obtain ⟨i, hi, below⟩ := exists_input_layer h hs member
      obtain ⟨path, length, chain⟩ := ih below
      exact ⟨i :: path, by rw [List.length_cons, length],
        List.isChain_cons_cons.mpr ⟨⟨s, hs, rfl, hi⟩, chain⟩⟩

theorem length_le_layer (h : ValidStages stages) {path : List StepId} {step : StepId} {layer : Nat}
    (chain : (step :: path).IsChain (TakesFrom stages))
    (member : (step, layer) ∈ layersOf stages) : path.length ≤ layer := by
  induction path generalizing step layer with
  | nil => exact Nat.zero_le layer
  | cons i rest ih =>
      obtain ⟨takes, more⟩ := List.isChain_cons_cons.mp chain
      obtain ⟨s, hs, rfl, hi⟩ := id takes
      obtain ⟨-, t, ht, rfl⟩ := h.inputs s hs i hi
      obtain ⟨low, below⟩ := exists_layer ht
      have shorter := ih more below
      have less := takes.layer_lt h member below
      rw [List.length_cons]
      omega

/-- The layer of a stage is the length of the longest path below it. -/
theorem layer_iff_isGreatest (h : ValidStages stages) {s : Stage} (hs : s ∈ stages) {layer : Nat} :
    (s.step, layer) ∈ layersOf stages ↔ IsGreatest (pathLengths stages s.step) layer := by
  have greatest {own : Nat} (member : (s.step, own) ∈ layersOf stages) :
      IsGreatest (pathLengths stages s.step) own := by
    refine ⟨mem_pathLengths h member, ?_⟩
    rintro n ⟨path, rfl, chain⟩
    exact length_le_layer h chain member
  refine ⟨greatest, fun longest => ?_⟩
  obtain ⟨own, member⟩ := exists_layer hs
  rwa [longest.unique (greatest member)]

/-- A step is in the wave with a number. -/
def InWave (waves : List (List StepId)) (number : Nat) (step : StepId) : Prop :=
  ∃ wave ∈ waves[number]?, step ∈ wave

/-- Waves run every stage once, after its inputs and as early as these allow. -/
structure MinimalSchedule (stages : List Stage) (waves : List (List StepId)) : Prop where
  /-- No step is listed twice. -/
  once : waves.flatten.Nodup
  /-- The steps of the stages are listed, and nothing else. -/
  complete : ∀ step, step ∈ waves.flatten ↔ ∃ s ∈ stages, s.step = step
  /-- No wave is empty. -/
  nonempty : [] ∉ waves
  /-- The steps of a wave ascend. -/
  ascending : ∀ wave ∈ waves, wave.Pairwise (· < ·)
  /-- Every input is in an earlier wave. -/
  barrier : ∀ s ∈ stages, ∀ i ∈ s.inputs, ∀ number, InWave waves number s.step →
    ∃ earlier < number, InWave waves earlier i
  /-- The number of the wave is the length of the longest path below the stage. -/
  longest : ∀ s ∈ stages, ∀ number,
    InWave waves number s.step ↔ IsGreatest (pathLengths stages s.step) number

theorem inWave_iff (h : ValidStages g.stages) {number : Nat} {step : StepId} :
    InWave g.waves number step ↔ (step, number) ∈ layersOf g.stages := by
  obtain ⟨count, waves, used⟩ := exists_count h
  rw [InWave, waves, List.getElem?_map]
  by_cases less : number < count
  · simp [List.getElem?_range less, mem_wave]
  · have missed : (List.range count)[number]? = none := by simpa using less
    have unused : (step, number) ∉ layersOf g.stages := fun member =>
      less ((used number).mpr ⟨step, member⟩)
    simp [missed, unused]

theorem pairwise_wave (h : ValidStages stages) (layer : Nat) :
    (wave stages layer).Pairwise (· < ·) := by
  have ascending : ((layersOf stages).map (·.1)).Pairwise (· < ·) := by
    rw [map_fst_layersOf]
    exact List.pairwise_map.mpr h.ascending
  exact List.pairwise_map.mpr ((List.pairwise_map.mp ascending).filter _)

theorem nodup_wave (h : ValidStages stages) (layer : Nat) : (wave stages layer).Nodup :=
  (pairwise_wave h layer).imp StepId.ne_of_lt

/-- The waves of a valid graph are a minimal schedule of its stages. -/
theorem Valid.minimalSchedule (h : g.Valid) : MinimalSchedule g.stages g.waves where
  once := g.flatten_waves_perm.nodup_iff.mpr h.stages.steps_nodup
  complete step := by
    rw [g.flatten_waves_perm.mem_iff, List.mem_map]
  nonempty := by
    obtain ⟨count, waves, used⟩ := exists_count h.stages
    rw [waves]
    intro member
    obtain ⟨layer, inside, empty⟩ := List.mem_map.mp member
    obtain ⟨step, found⟩ := (used layer).mp (List.mem_range.mp inside)
    have present := mem_wave.mpr found
    rw [empty] at present
    cases present
  ascending := by
    obtain ⟨count, waves, -⟩ := exists_count h.stages
    rw [waves]
    intro steps member
    obtain ⟨layer, -, rfl⟩ := List.mem_map.mp member
    exact pairwise_wave h.stages layer
  barrier s hs i hi number inside := by
    obtain ⟨high, low, above, below, less⟩ := exists_lower_layer h.stages hs hi
    rw [layer_unique h.stages ((inWave_iff h.stages).mp inside) above]
    exact ⟨low, less, (inWave_iff h.stages).mpr below⟩
  longest s hs number := by
    rw [inWave_iff h.stages, layer_iff_isGreatest h.stages hs]

section Compiled

variable {p : Plan} {start : StepId}

/-- A stage is in the first wave exactly if it reads a relation. -/
theorem inWave_zero_iff (compiled : p.compileFrom start = .ok g) {step : StepId} :
    InWave g.waves 0 step ↔ ∃ s ∈ g.stages, s.step = step ∧ s.spec.kind = .scan := by
  have valid := (compileFrom_eq_ok compiled).1
  have scans {s : Stage} (hs : s ∈ g.stages) : s.spec.kind = .scan ↔ s.inputs = [] := by
    rw [Engine.inputs_eq_nil_iff compiled hs]
    cases s.spec <;> simp [StageSpec.kind]
  rw [inWave_iff valid.stages]
  constructor
  · intro first
    obtain ⟨s, hs, rfl⟩ := exists_stage_of_layer first
    refine ⟨s, hs, rfl, (scans hs).mpr ?_⟩
    by_contra takes
    exact layer_of_inputs valid.stages hs takes first
  · rintro ⟨s, hs, rfl, scan⟩
    exact layer_of_source hs ((scans hs).mp scan)

/-- Every stage of a compiled plan but the root gives its records to another one. -/
theorem eq_root_or_exists_takesFrom (compiled : p.compileFrom start = .ok g) {s : Stage}
    (hs : s ∈ g.stages) : s.step = g.root ∨ ∃ t ∈ g.stages, TakesFrom g.stages t.step s.step := by
  obtain ⟨n, hn, stage⟩ := exists_node_of_stage compiled hs
  rw [step_of_stage? stage, (compileFrom_eq_ok compiled).2.1]
  rcases Plan.eq_root_or_exists_parent hn with rfl | ⟨m, hm, child⟩
  · exact .inl rfl
  · obtain ⟨t, ht, made, -⟩ := exists_stage_of_mem_numbered compiled hm
    refine .inr ⟨t, ht, t, ht, rfl, ?_⟩
    rw [PlanNode.inputs_of_stage? made]
    exact List.mem_map.mpr ⟨n, child, rfl⟩

/-- The last wave is the root alone. -/
theorem getLast?_waves (compiled : p.compileFrom start = .ok g) :
    g.waves.getLast? = some [g.root] := by
  have valid := (compileFrom_eq_ok compiled).1
  obtain ⟨count, waves, used⟩ := exists_count valid.stages
  obtain ⟨root, found⟩ := valid.root
  obtain ⟨layer, inside⟩ := exists_layer (mem_of_stageAt? found).1
  obtain ⟨top, rfl⟩ : ∃ top, count = top + 1 :=
    Nat.exists_eq_add_one_of_ne_zero (Nat.ne_zero_of_lt ((used layer).mpr ⟨_, inside⟩))
  -- A stage of the last wave has none above it that could take its records.
  have only : ∀ step ∈ wave g.stages top, step = g.root := by
    intro step member
    have last := mem_wave.mp member
    obtain ⟨s, hs, rfl⟩ := exists_stage_of_layer last
    refine (eq_root_or_exists_takesFrom compiled hs).resolve_right ?_
    rintro ⟨t, ht, takes⟩
    obtain ⟨high, above⟩ := exists_layer ht
    have less := takes.layer_lt valid.stages above last
    have bound := (used high).mpr ⟨_, above⟩
    omega
  obtain ⟨step, last⟩ := (used top).mp (Nat.lt_succ_self top)
  have single : wave g.stages top = [g.root] := by
    have present := mem_wave.mpr last
    rw [only step present] at present
    exact eq_singleton_of_nodup (nodup_wave valid.stages top) present only
  rw [waves, List.range_succ, List.map_append, List.map_singleton, List.getLast?_concat, single]

end Compiled

/-- The waves of every graph that is made are a minimal schedule; those of a compiled plan begin
with its scans and end with its root. -/
theorem waves_minimal (g : StageGraph) :
    (∀ root stages, ofStages root stages = .ok g → MinimalSchedule g.stages g.waves) ∧
      ∀ (p : Plan) (start : StepId), p.compileFrom start = .ok g →
        (∀ step, InWave g.waves 0 step ↔ ∃ s ∈ g.stages, s.step = step ∧ s.spec.kind = .scan) ∧
          g.waves.getLast? = some [g.root] := by
  constructor
  · intro root stages made
    exact (valid_of_ofStages made).1.minimalSchedule
  · intro p start compiled
    exact ⟨fun step => inWave_zero_iff compiled, getLast?_waves compiled⟩

/-- Persons with persons of their age. Two stages take the records of one scan, and two lead
nowhere. -/
def sharedGraph : StageGraph :=
  let sameAge : Condition := .equal (.attr (.qualified "X" "age")) (.attr (.qualified "P" "age"))
  ⟨⟨1⟩, [⟨⟨1⟩, .join sameAge "X" "P", "X,P", [⟨4⟩, ⟨7⟩]⟩,
    ⟨⟨2⟩, .project [.bare "age"], "P", [⟨7⟩]⟩, ⟨⟨4⟩, .rename "X", "X", [⟨7⟩]⟩,
    ⟨⟨7⟩, .scan "P", "P", []⟩, ⟨⟨9⟩, .scan "Q", "Q", []⟩]⟩

theorem waves_minimal_shared :
    ofStages ⟨1⟩ sharedGraph.stages.reverse = .ok sharedGraph ∧
      MinimalSchedule sharedGraph.stages sharedGraph.waves ∧
      sharedGraph.waves = [[⟨7⟩, ⟨9⟩], [⟨2⟩, ⟨4⟩], [⟨1⟩]] ∧
      ∃ g, (Plan.project [.bare "age"] (.rename "X" (.scan "P"))).compileFrom ⟨5⟩ = .ok g ∧
        (∀ step, InWave g.waves 0 step ↔ ∃ s ∈ g.stages, s.step = step ∧ s.spec.kind = .scan) ∧
        g.waves.getLast? = some [g.root] := by
  have accepted : ofStages ⟨1⟩ sharedGraph.stages.reverse = .ok sharedGraph :=
    ofStages_of_faultless (by decide) (by decide) (List.reverse_perm _)
  obtain ⟨g, compiled⟩ : ∃ g,
      (Plan.project [.bare "age"] (.rename "X" (.scan "P"))).compileFrom ⟨5⟩ = .ok g :=
    Plan.exists_compileFrom (by decide) (by decide) (by decide)
  exact ⟨accepted, (waves_minimal sharedGraph).1 _ _ accepted, by decide, g, compiled,
    (waves_minimal g).2 _ _ compiled⟩

end StageGraph

end StagedAlgebra
