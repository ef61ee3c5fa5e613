import StagedAlgebra.Proofs.GraphMaking

/-!
# Waves respect inputs

The stages of a valid graph ascend strictly, and every input of a stage is a later stage. The
layer of a stage is thus above the layers of its inputs, and the waves run every stage once,
after all of its inputs: `StageGraph.Valid.barrier`.

## Implementation notes

`layersOf` recurses on the list of stages, and so do its lemmas. A valid list of stages stays
valid without its first stage, because no later stage takes the first one's records.
-/

namespace StagedAlgebra

namespace StageGraph

theorem map_fst_layersOf (stages : List Stage) :
    (layersOf stages).map (·.1) = stages.map (·.step) := by
  induction stages with
  | nil => rfl
  | cons s rest ih => simp [layersOf, ih]

theorem le_foldl_max {x start : Nat} {xs : List Nat} (h : x ≤ start ∨ x ∈ xs) :
    x ≤ xs.foldl max start := by
  induction xs generalizing start with
  | nil => simpa using h
  | cons y ys ih =>
      rw [List.foldl_cons]
      apply ih
      rcases h with h | h
      · left
        omega
      · rcases List.mem_cons.mp h with rfl | h
        · left
          omega
        · exact .inr h

theorem lt_layerAfter {layers : List (StepId × Nat)} {s : Stage} {i : StepId} {layer : Nat}
    (hi : i ∈ s.inputs) (h : layers.lookup i = some layer) : layer < layerAfter layers s := by
  apply Nat.lt_of_succ_le
  apply le_foldl_max
  right
  rw [List.mem_map]
  exact ⟨layer, List.mem_filterMap.mpr ⟨i, hi, h⟩, rfl⟩

theorem exists_lookup_of_mem {layers : List (StepId × Nat)} {i : StepId}
    (h : i ∈ layers.map (·.1)) : ∃ layer, layers.lookup i = some layer ∧ (i, layer) ∈ layers := by
  induction layers with
  | nil => cases h
  | cons entry rest ih =>
      rw [List.lookup_cons]
      by_cases first : i = entry.1
      · exact ⟨entry.2, by simp [first], by simp [first]⟩
      · have other : (i == entry.1) = false := by simpa using first
        rw [other]
        obtain ⟨layer, found, member⟩ := ih (by simpa [first] using h)
        exact ⟨layer, found, by simp [member]⟩

/-- Every input of a stage is in a lower layer. -/
theorem exists_lower_layer {stages : List Stage} (h : ValidStages stages) {s : Stage}
    (hs : s ∈ stages) {i : StepId} (hi : i ∈ s.inputs) :
    ∃ high low, (s.step, high) ∈ layersOf stages ∧ (i, low) ∈ layersOf stages ∧ low < high := by
  induction stages with
  | nil => cases hs
  | cons t rest ih =>
      rcases List.mem_cons.mp hs with rfl | hs
      · obtain ⟨after, u, hu, equal⟩ := h.inputs s (by simp) i hi
        have later : u ∈ rest := by
          rcases List.mem_cons.mp hu with rfl | hu
          · exact absurd equal (StepId.ne_of_lt after)
          · exact hu
        have known : i ∈ (layersOf rest).map (·.1) := by
          rw [map_fst_layersOf, List.mem_map]
          exact ⟨u, later, equal⟩
        obtain ⟨low, found, member⟩ := exists_lookup_of_mem known
        exact ⟨_, low, by simp [layersOf], by simp [layersOf, member], lt_layerAfter hi found⟩
      · obtain ⟨high, low, above, below, less⟩ := ih h.tail hs
        exact ⟨high, low, by simp [layersOf, above], by simp [layersOf, below], less⟩

theorem layer_unique {stages : List Stage} (h : ValidStages stages) {step : StepId} {k l : Nat}
    (hk : (step, k) ∈ layersOf stages) (hl : (step, l) ∈ layersOf stages) : k = l := by
  have distinct : ((layersOf stages).map (·.1)).Nodup := by
    rw [map_fst_layersOf]
    exact h.steps_nodup
  have equal := List.inj_on_of_nodup_map distinct hk hl rfl
  exact congrArg Prod.snd equal

/-- Every stage of the waves takes its records from stages that are done before its wave. -/
def Barrier (stages : List Stage) (done : List StepId) : List (List StepId) → Prop
  | [] => True
  | wave :: rest =>
    (∀ s ∈ stages, s.step ∈ wave → ∀ i ∈ s.inputs, i ∈ done) ∧
      Barrier stages (done ++ wave) rest

/-- The steps of a layer. -/
def wave (stages : List Stage) (layer : Nat) : List StepId :=
  ((layersOf stages).filter (·.2 == layer)).map (·.1)

theorem mem_wave {stages : List Stage} {layer : Nat} {step : StepId} :
    step ∈ wave stages layer ↔ (step, layer) ∈ layersOf stages := by
  simp [wave]

theorem waves_eq (g : StageGraph) :
    ∃ count, g.waves = (List.range' 0 count).map (wave g.stages) ∧
      ∀ entry ∈ layersOf g.stages, entry.2 < count := by
  refine ⟨_, by rw [← List.range_eq_range']; rfl, fun entry member => ?_⟩
  apply Nat.lt_of_succ_le
  apply le_foldl_max
  right
  exact List.mem_map.mpr ⟨entry, member, rfl⟩

/-- Layers in order are waves with barriers between them. -/
theorem barrier_layers {stages : List Stage} (h : ValidStages stages) {done : List StepId}
    {first : Nat} (lower : ∀ step layer, (step, layer) ∈ layersOf stages → layer < first →
      step ∈ done) (count : Nat) :
    Barrier stages done ((List.range' first count).map (wave stages)) := by
  induction count generalizing first done with
  | zero => simp [Barrier]
  | succ count ih =>
      rw [List.range'_succ, List.map_cons, Barrier]
      constructor
      · intro s hs inside i hi
        obtain ⟨high, low, above, below, less⟩ := exists_lower_layer h hs hi
        have : high = first := layer_unique h above (mem_wave.mp inside)
        exact lower i low below (by omega)
      · apply ih
        intro step layer member less
        rw [List.mem_append]
        by_cases last : layer = first
        · exact .inr (mem_wave.mpr (last ▸ member))
        · exact .inl (lower step layer member (by omega))

theorem Valid.barrier {g : StageGraph} (h : g.Valid) : Barrier g.stages [] g.waves := by
  obtain ⟨count, waves, -⟩ := g.waves_eq
  rw [waves]
  exact barrier_layers h.stages (fun _ _ _ less => absurd less (by omega)) count

/-- Layers in order hold every entry below the last one once. -/
theorem flatten_layers_perm (layers : List (StepId × Nat)) (count : Nat) :
    (((List.range count).map fun layer => layers.filter (·.2 == layer)).flatten).Perm
      (layers.filter (·.2 < count)) := by
  induction count with
  | zero => simp
  | succ count ih =>
      rw [List.range_succ, List.map_append, List.flatten_append]
      have below : (layers.filter (·.2 < count + 1)).filter (·.2 < count) =
          layers.filter (·.2 < count) := by
        rw [List.filter_filter]
        apply List.filter_congr
        intro entry _
        rw [Bool.eq_iff_iff]
        simp
        omega
      have last : (layers.filter (·.2 < count + 1)).filter
          (fun entry => !decide (entry.2 < count)) = layers.filter (·.2 == count) := by
        rw [List.filter_filter]
        apply List.filter_congr
        intro entry _
        rw [Bool.eq_iff_iff]
        simp
        omega
      have split := List.filter_append_perm (fun entry : StepId × Nat => decide (entry.2 < count))
        (layers.filter (·.2 < count + 1))
      rw [below, last] at split
      simpa using (ih.append_right _).trans split

/-- The waves run every stage once. -/
theorem flatten_waves_perm (g : StageGraph) :
    g.waves.flatten.Perm (g.stages.map (·.step)) := by
  obtain ⟨count, waves, bound⟩ := g.waves_eq
  have all : (layersOf g.stages).filter (·.2 < count) = layersOf g.stages :=
    List.filter_eq_self.mpr fun entry member => by simpa using bound entry member
  have permuted := (flatten_layers_perm (layersOf g.stages) count).map (·.1)
  rw [all, map_fst_layersOf, List.map_flatten, List.map_map] at permuted
  rw [waves, ← List.range_eq_range']
  exact permuted

end StageGraph

end StagedAlgebra
