import Mathlib.Data.List.Induction
import StagedAlgebra.Engine
import StagedAlgebra.Proofs.Outcomes
import StagedAlgebra.Proofs.Waves

/-!
# The order in which stages run

A run goes through the waves of a graph and through the stages of each wave. For a valid graph
that is one list of stages, its *schedule*: every stage once, after the stages of its inputs. A
run is a walk through the schedule (`Engine.runWaves_eq`), and at each stage it makes attempts
until one succeeds or the retries are used up.

## Implementation notes

`Engine.Reaches` says that a run gets through the first stages of a schedule, and
`Engine.attemptStates` lists the states in which the attempts at a stage begin. What holds in every
state of a run is proved of one attempt, and carried to the run by `attemptStates_invariant`,
`runInOrder_invariant` and `Reaches.invariant`; the walk itself is not opened again.
-/

namespace StagedAlgebra

namespace StageGraph

/-- The stages in the order in which they run: wave by wave, each wave ascending. -/
def schedule (g : StageGraph) : List Stage :=
  g.waves.flatten.filterMap g.stage?

variable {g : StageGraph}

theorem Valid.exists_stage? (h : g.Valid) {step : StepId} (member : step ∈ g.waves.flatten) :
    ∃ s ∈ g.stages, g.stage? step = some s ∧ s.step = step := by
  rw [g.flatten_waves_perm.mem_iff] at member
  obtain ⟨s, hs, rfl⟩ := List.mem_map.mp member
  exact ⟨s, hs, h.stages.stageAt?_of_mem hs, rfl⟩

theorem Valid.filterMap_stage? (h : g.Valid) {steps : List StepId}
    (inside : ∀ step ∈ steps, step ∈ g.waves.flatten) :
    (steps.filterMap g.stage?).map (·.step) = steps := by
  induction steps with
  | nil => rfl
  | cons step rest ih =>
      obtain ⟨s, -, found, same⟩ := h.exists_stage? (inside step (by simp))
      rw [List.filterMap_cons_some found, List.map_cons, same,
        ih fun other ho => inside other (by simp [ho])]

theorem Valid.map_step_schedule (h : g.Valid) : g.schedule.map (·.step) = g.waves.flatten :=
  h.filterMap_stage? fun _ member => member

/-- A schedule holds every stage once. -/
theorem Valid.schedule_perm (h : g.Valid) : g.schedule.Perm g.stages := by
  have permuted := g.flatten_waves_perm.filterMap g.stage?
  have all : (g.stages.map (·.step)).filterMap g.stage? = g.stages := by
    rw [List.filterMap_map]
    calc
      g.stages.filterMap (g.stage? ∘ (·.step)) = g.stages.filterMap some :=
        List.filterMap_congr fun s hs => h.stages.stageAt?_of_mem hs
      _ = g.stages := List.filterMap_some
  rwa [all] at permuted

theorem Valid.mem_schedule_iff (h : g.Valid) {s : Stage} : s ∈ g.schedule ↔ s ∈ g.stages :=
  h.schedule_perm.mem_iff

/-- The stages before a stage have other numbers. -/
theorem Valid.step_ne_of_before (h : g.Valid) {before after : List Stage} {s t : Stage}
    (order : g.schedule = before ++ s :: after) (ht : t ∈ before) : t.step ≠ s.step := by
  have distinct : (g.schedule.map (·.step)).Nodup :=
    (h.schedule_perm.map _).nodup_iff.mpr h.stages.steps_nodup
  rw [order, List.map_append, List.map_cons, List.nodup_append] at distinct
  exact distinct.2.2 _ (List.mem_map.mpr ⟨t, ht, rfl⟩) _ (by simp)

/-- What a stage takes comes earlier in the waves. -/
theorem mem_of_barrier {stages : List Stage} {waves : List (List StepId)} {done : List StepId}
    (barrier : Barrier stages done waves) {s : Stage} (hs : s ∈ stages)
    {before after : List StepId} (order : waves.flatten = before ++ s.step :: after) {i : StepId}
    (hi : i ∈ s.inputs) : i ∈ done ++ before := by
  induction waves generalizing done before with
  | nil => simp at order
  | cons wave rest ih =>
      obtain ⟨inputs, later⟩ := barrier
      rw [List.flatten_cons, List.append_eq_append_iff] at order
      obtain ⟨front, rfl, order⟩ | ⟨back, split, order⟩ := order
      · have member := ih later order
        rwa [List.append_assoc] at member
      · -- The stage is in this wave, or it is the first one of the next.
        cases back with
        | nil =>
            rw [List.append_nil] at split
            have member : i ∈ (done ++ wave) ++ [] := ih later order.symm
            simpa [split] using member
        | cons first more =>
            rw [List.cons_append, List.cons.injEq] at order
            apply List.mem_append_left
            apply inputs s hs ?_ i hi
            rw [split, order.1]
            simp

/-- Every input of a stage stands before it in the schedule. -/
theorem Valid.exists_input_before (h : g.Valid) {before after : List Stage} {s : Stage}
    (order : g.schedule = before ++ s :: after) {i : StepId} (hi : i ∈ s.inputs) :
    ∃ t ∈ before, t.step = i := by
  have member : s ∈ g.stages := h.mem_schedule_iff.mp (by simp [order])
  have steps := h.map_step_schedule
  rw [order, List.map_append, List.map_cons] at steps
  have earlier := mem_of_barrier h.barrier member steps.symm hi
  simpa using earlier

theorem layer_of_source {stages : List Stage} {s : Stage} (hs : s ∈ stages)
    (source : s.inputs = []) : (s.step, 0) ∈ layersOf stages := by
  induction stages with
  | nil => cases hs
  | cons t rest ih =>
      rcases List.mem_cons.mp hs with rfl | hs
      · simp [layersOf, layerAfter, source]
      · simp [layersOf, ih hs]

theorem layer_of_inputs {stages : List Stage} (h : ValidStages stages) {s : Stage}
    (hs : s ∈ stages) (takes : s.inputs ≠ []) : (s.step, 0) ∉ layersOf stages := by
  intro first
  obtain ⟨i, hi⟩ := List.exists_mem_of_ne_nil s.inputs takes
  obtain ⟨high, low, above, -, less⟩ := exists_lower_layer h hs hi
  have same : high = 0 := layer_unique h above first
  omega

/-- The stages without inputs come before all others. -/
theorem Valid.source_before (h : g.Valid) {before after : List Stage} {s t : Stage}
    (order : g.schedule = before ++ s :: after) (takes : s.inputs ≠ []) (ht : t ∈ g.stages)
    (source : t.inputs = []) : t ∈ before := by
  have hs : s ∈ g.stages := h.mem_schedule_iff.mp (by simp [order])
  obtain ⟨count, waves, bound⟩ := g.waves_eq
  have first := layer_of_source ht source
  obtain ⟨more, rfl⟩ : ∃ more, count = more + 1 :=
    Nat.exists_eq_add_one_of_ne_zero (Nat.ne_zero_of_lt (bound _ first))
  rw [List.range'_succ, List.map_cons] at waves
  have split : g.schedule = (wave g.stages 0).filterMap g.stage? ++
      (List.map (wave g.stages) (List.range' (0 + 1) more)).flatten.filterMap g.stage? := by
    rw [schedule, waves, List.flatten_cons, List.filterMap_append]
  have sources : ((wave g.stages 0).filterMap g.stage?).map (·.step) = wave g.stages 0 := by
    apply h.filterMap_stage?
    intro step hstep
    rw [waves, List.flatten_cons]
    exact List.mem_append_left _ hstep
  have inside : t ∈ (wave g.stages 0).filterMap g.stage? :=
    List.mem_filterMap.mpr ⟨t.step, mem_wave.mpr first, h.stages.stageAt?_of_mem ht⟩
  have outside : s ∉ (wave g.stages 0).filterMap g.stage? := by
    intro member
    have step : s.step ∈ wave g.stages 0 := by
      rw [← sources]
      exact List.mem_map.mpr ⟨s, member, rfl⟩
    exact layer_of_inputs h.stages hs takes (mem_wave.mp step)
  rw [order, List.append_eq_append_iff] at split
  obtain ⟨front, equal, rest⟩ | ⟨back, equal, -⟩ := split
  · rw [equal] at inside outside
    cases front with
    | nil => simpa using inside
    | cons first others =>
        rw [List.cons_append, List.cons.injEq] at rest
        exact absurd (by simp [rest.1]) outside
  · rw [equal]
    exact List.mem_append_left _ inside

theorem Valid.sources_first (h : g.Valid) {before after : List Stage} {s : Stage}
    (order : g.schedule = before ++ s :: after) (source : s.inputs = []) :
    ∀ t ∈ before, t.inputs = [] := by
  intro t ht
  by_contra takes
  have member : s ∈ g.stages := h.mem_schedule_iff.mp (by simp [order])
  obtain ⟨front, back, rfl⟩ := List.append_of_mem ht
  have split : g.schedule = front ++ t :: (back ++ s :: after) := by
    rw [order, List.append_assoc, List.cons_append]
  have early : s ∈ front ++ t :: back :=
    List.mem_append_left _ (h.source_before split takes member source)
  exact h.step_ne_of_before order early rfl

end StageGraph

/-- Only scans have no operator. -/
theorem StageSpec.eq_scan_of_offer {spec : StageSpec} (h : spec.work = .ok .offer) :
    ∃ relation, spec = .scan relation := by
  cases spec with
  | scan relation => exact ⟨relation, rfl⟩
  | select | project | rename => cases h
  | join c left right =>
      rw [StageSpec.work, map_eq_ok_iff] at h
      obtain ⟨j, -, impossible⟩ := h
      cases impossible

theorem Engine.storesOutput_of_scan {s : Stage} {relation : String}
    (h : s.spec = .scan relation) : storesOutput s = false := by
  simp [storesOutput, h, StageSpec.kind]

theorem Engine.storesOutput_of_work {s : Stage} {op : Operator}
    (h : s.spec.work = .ok (.apply op)) : storesOutput s = true := by
  cases spec : s.spec with
  | scan relation =>
      rw [spec] at h
      cases h
  | select | project | rename | join => simp [storesOutput, spec, StageSpec.kind]

namespace Engine

variable {g : StageGraph} {e e₁ e' : Engine} {s : Stage} {stages : List Stage}

/-- Runs stages one after another, each with its retries, up to the first failure. -/
def runInOrder (e : Engine) (g : StageGraph) (stages : List Stage) :
    Except RunFault (List StageReport) × Engine :=
  Scheduler.runWave (fun e stage => runStage e g stage 0 e.settings.stageRetries) e stages

/-- Running some stages succeeds and leads to a state. -/
def Reaches (e : Engine) (g : StageGraph) (stages : List Stage) (e' : Engine) : Prop :=
  ∃ reports, e.runInOrder g stages = (.ok reports, e')

theorem runInOrder_cons_of_error {fault : RunFault}
    (h : e.runStage g s 0 e.settings.stageRetries = (.error fault, e')) :
    e.runInOrder g (s :: stages) = (.error fault, e') := by
  simp only [runInOrder, Scheduler.runWave, h]

theorem runInOrder_cons_of_ok {report : StageReport}
    (h : e.runStage g s 0 e.settings.stageRetries = (.ok report, e')) :
    e.runInOrder g (s :: stages) =
      ((e'.runInOrder g stages).1.map (report :: ·), (e'.runInOrder g stages).2) := by
  simp only [runInOrder, Scheduler.runWave, h]

theorem runInOrder_append_of_error {fault : RunFault} {more : List Stage}
    (h : e.runInOrder g stages = (.error fault, e')) :
    e.runInOrder g (stages ++ more) = (.error fault, e') := by
  induction stages generalizing e with
  | nil => cases h
  | cons s rest ih =>
      rw [List.cons_append]
      cases first : e.runStage g s 0 e.settings.stageRetries with
      | mk outcome e₁ =>
          cases outcome with
          | error fault' =>
              rw [runInOrder_cons_of_error first] at h ⊢
              exact h
          | ok report =>
              rw [runInOrder_cons_of_ok first] at h ⊢
              cases others : e₁.runInOrder g rest with
              | mk outcome e₂ =>
                  rw [others] at h
                  cases outcome with
                  | ok reports => cases h
                  | error fault' =>
                      cases h
                      rw [ih others]
                      rfl

theorem runInOrder_append_of_ok {reports : List StageReport} {more : List Stage}
    (h : e.runInOrder g stages = (.ok reports, e')) :
    e.runInOrder g (stages ++ more) =
      ((e'.runInOrder g more).1.map (reports ++ ·), (e'.runInOrder g more).2) := by
  induction stages generalizing e reports with
  | nil =>
      cases h
      rw [List.nil_append]
      cases e'.runInOrder g more with
      | mk outcome e₁ => cases outcome <;> rfl
  | cons s rest ih =>
      rw [List.cons_append]
      cases first : e.runStage g s 0 e.settings.stageRetries with
      | mk outcome e₁ =>
          cases outcome with
          | error fault =>
              rw [runInOrder_cons_of_error first] at h
              cases h
          | ok report =>
              rw [runInOrder_cons_of_ok first] at h ⊢
              cases others : e₁.runInOrder g rest with
              | mk outcome e₂ =>
                  rw [others] at h
                  cases outcome with
                  | error fault => cases h
                  | ok rest' =>
                      obtain ⟨rfl, rfl⟩ : report :: rest' = reports ∧ e₂ = e' := by
                        simpa [Except.map] using h
                      rw [ih others]
                      cases e₂.runInOrder g more with
                      | mk outcome e₃ => cases outcome <;> rfl

/-- Stages that are run well have one report each. -/
theorem length_of_runInOrder {reports : List StageReport}
    (h : e.runInOrder g stages = (.ok reports, e')) : reports.length = stages.length :=
  Scheduler.length_of_runWave (congrArg Prod.fst h)

theorem stagesOf_eq (valid : g.Valid) {steps : List StepId}
    (inside : ∀ step ∈ steps, step ∈ g.waves.flatten) :
    stagesOf g steps = .ok (steps.filterMap g.stage?) := by
  induction steps with
  | nil => rfl
  | cons step rest ih =>
      obtain ⟨s, -, found, -⟩ := valid.exists_stage? (inside step (by simp))
      have others := ih fun other ho => inside other (by simp [ho])
      simp [stagesOf, found, others, Except.map]

theorem runWaves_eq_of_subset (valid : g.Valid) {waves : List (List StepId)}
    (inside : ∀ step ∈ waves.flatten, step ∈ g.waves.flatten) :
    e.runWaves g waves = e.runInOrder g (waves.flatten.filterMap g.stage?) := by
  induction waves generalizing e with
  | nil => rfl
  | cons wave rest ih =>
      have first : stagesOf g wave = .ok (wave.filterMap g.stage?) :=
        stagesOf_eq valid fun step hs => inside step (List.mem_append_left _ hs)
      have others : ∀ step ∈ rest.flatten, step ∈ g.waves.flatten := fun step hs =>
        inside step (List.mem_append_right wave hs)
      rw [List.flatten_cons, List.filterMap_append, runWaves, first]
      cases ran : e.runInOrder g (wave.filterMap g.stage?) with
      | mk outcome e₁ =>
          cases outcome with
          | error fault =>
              rw [runInOrder_append_of_error ran]
              simp only [runInOrder] at ran
              simp only [ran]
          | ok reports =>
              rw [runInOrder_append_of_ok ran, ← ih others]
              simp only [runInOrder] at ran
              simp only [ran]

/-- The waves of a valid graph are run as its schedule. -/
theorem runWaves_eq (valid : g.Valid) (e : Engine) :
    e.runWaves g g.waves = e.runInOrder g g.schedule :=
  runWaves_eq_of_subset valid fun _ member => member

theorem runStages_of_error (valid : g.Valid) {fault : RunFault}
    (h : e.runInOrder g g.schedule = (.error fault, e')) : e.runStages g = (.error fault, e') := by
  rw [← runWaves_eq valid] at h
  simp only [runStages_eq, h]

theorem runStages_of_ok (valid : g.Valid) {reports : List StageReport}
    (h : e.runInOrder g g.schedule = (.ok reports, e')) :
    e.runStages g = ((e'.stepRecords g g.root).map fun records => ⟨records, reports⟩, e') := by
  rw [← runWaves_eq valid] at h
  simp only [runStages_eq, h]

theorem snd_runStages (valid : g.Valid) (e : Engine) :
    (e.runStages g).2 = (e.runInOrder g g.schedule).2 := by
  cases ran : e.runInOrder g g.schedule with
  | mk outcome e₁ =>
      cases outcome with
      | error fault => rw [runStages_of_error valid ran]
      | ok reports => rw [runStages_of_ok valid ran]

/-- A run that succeeds has run every stage. -/
theorem exists_runInOrder_of_run (valid : g.Valid) {out : RunOutput}
    (h : (e.run g).1 = .ok out) :
    ∃ e', e.runInOrder g g.schedule = (.ok out.reports, e') ∧
      e'.stepRecords g g.root = .ok out.records := by
  have stages : (e.runStages g).1 = .ok out := by rwa [← fst_run]
  cases ran : e.runInOrder g g.schedule with
  | mk outcome e₁ =>
      cases outcome with
      | error fault =>
          rw [runStages_of_error valid ran] at stages
          cases stages
      | ok reports =>
          rw [runStages_of_ok valid ran] at stages
          obtain ⟨records, read, rfl⟩ := map_eq_ok_iff.mp stages
          exact ⟨e₁, rfl, read⟩

/-- The states in which the attempts at a stage begin. -/
def attemptStates (e : Engine) (g : StageGraph) (stage : Stage) : (retries : Nat) → List Engine
  | 0 => [e]
  | retries + 1 =>
    match e.attempt g stage with
    | (.ok _, _) => [e]
    | (.error _, e') => e :: e'.attemptStates g stage retries

/-- The first attempt begins in the state of the start. -/
theorem self_mem_attemptStates (e : Engine) (g : StageGraph) (s : Stage) (retries : Nat) :
    e ∈ e.attemptStates g s retries := by
  cases retries with
  | zero => simp [attemptStates]
  | succ retries =>
      unfold attemptStates
      split <;> simp

/-- A stage succeeds with its last attempt, and reports how many there were. -/
theorem runStage_eq_ok {tried retries : Nat} {report : StageReport}
    (h : e.runStage g s tried retries = (.ok report, e')) :
    ∃ x ∈ e.attemptStates g s retries, ∃ taken made, x.attempt g s = (.ok (taken, made), e') ∧
      report =
        ⟨s.step, s.spec.kind, taken, made, tried + (e.attemptStates g s retries).length⟩ := by
  induction retries generalizing e tried with
  | zero =>
      rw [runStage] at h
      cases ran : e.attempt g s with
      | mk outcome e₁ =>
          rw [ran] at h
          cases outcome with
          | error fault => cases h
          | ok counts =>
              cases h
              exact ⟨e, by simp [attemptStates], counts.1, counts.2, ran, rfl⟩
  | succ retries ih =>
      rw [runStage] at h
      cases ran : e.attempt g s with
      | mk outcome e₁ =>
          rw [ran] at h
          cases outcome with
          | ok counts =>
              cases h
              exact ⟨e, by simp [attemptStates, ran], counts.1, counts.2, ran,
                by simp [attemptStates, ran]⟩
          | error fault =>
              obtain ⟨x, hx, taken, made, last, rfl⟩ := ih h
              refine ⟨x, by simp [attemptStates, ran, hx], taken, made, last, ?_⟩
              simp only [attemptStates, ran, List.length_cons, StageReport.mk.injEq, true_and]
              omega

/-- A stage fails as its last attempt does. -/
theorem runStage_eq_error {tried retries : Nat} {fault : RunFault}
    (h : e.runStage g s tried retries = (.error fault, e')) :
    ∃ x ∈ e.attemptStates g s retries, x.attempt g s = (.error fault, e') := by
  induction retries generalizing e tried with
  | zero =>
      rw [runStage] at h
      cases ran : e.attempt g s with
      | mk outcome e₁ =>
          rw [ran] at h
          cases outcome with
          | ok counts => cases h
          | error fault =>
              cases h
              exact ⟨e, by simp [attemptStates], ran⟩
  | succ retries ih =>
      rw [runStage] at h
      cases ran : e.attempt g s with
      | mk outcome e₁ =>
          rw [ran] at h
          cases outcome with
          | ok counts => cases h
          | error fault =>
              obtain ⟨x, hx, last⟩ := ih h
              exact ⟨x, by simp [attemptStates, ran, hx], last⟩

section Invariants

variable {P : Engine → Prop}

/-- What failed attempts at a stage keep, every attempt at it begins with. -/
theorem attemptStates_invariant
    (step : ∀ x fault, P x → (x.attempt g s).1 = .error fault → P (x.attempt g s).2) (start : P e)
    (retries : Nat) : ∀ x ∈ e.attemptStates g s retries, P x := by
  induction retries generalizing e with
  | zero => simpa [attemptStates] using start
  | succ retries ih =>
      cases ran : e.attempt g s with
      | mk outcome e₁ =>
          cases outcome with
          | ok counts => simpa [attemptStates, ran] using start
          | error fault =>
              have next := step e fault start (by rw [ran])
              rw [ran] at next
              simp only [attemptStates, ran, List.mem_cons, forall_eq_or_imp]
              exact ⟨start, ih next⟩

theorem runStage_invariant (step : ∀ x, P x → P (x.attempt g s).2) (start : P e)
    (tried retries : Nat) : P (e.runStage g s tried retries).2 := by
  have begins := attemptStates_invariant (fun x _ h _ => step x h) start retries
  cases ran : e.runStage g s tried retries with
  | mk outcome e₁ =>
      cases outcome with
      | ok report =>
          obtain ⟨x, hx, taken, made, last, -⟩ := runStage_eq_ok ran
          simpa [last] using step x (begins x hx)
      | error fault =>
          obtain ⟨x, hx, last⟩ := runStage_eq_error ran
          simpa [last] using step x (begins x hx)

/-- What attempts keep, a run ends with, whether it succeeds or not. -/
theorem runInOrder_invariant (step : ∀ s ∈ stages, ∀ x, P x → P (x.attempt g s).2)
    (start : P e) : P (e.runInOrder g stages).2 := by
  induction stages generalizing e with
  | nil => exact start
  | cons s rest ih =>
      have next := runStage_invariant (step s (by simp)) start 0 e.settings.stageRetries
      cases ran : e.runStage g s 0 e.settings.stageRetries with
      | mk outcome e₁ =>
          rw [ran] at next
          cases outcome with
          | error fault =>
              rw [runInOrder_cons_of_error ran]
              exact next
          | ok report =>
              rw [runInOrder_cons_of_ok ran]
              exact ih (fun t ht => step t (by simp [ht])) next

end Invariants

/-- What the work of a stage can come to. -/
inductive WorkOutcome (e : Engine) (g : StageGraph) (s : Stage) :
    Except RunFault (Nat × Nat) × Engine → Prop
  /-- The operator of the stage cannot be built. -/
  | unbuilt {fault} (work : s.spec.work = .error fault) :
      WorkOutcome e g s (.error (.operator s.spec fault), e)
  /-- The stage has no operator, as it offers a relation, which is there or not. -/
  | offered {relation} (scan : s.spec = .scan relation) :
      WorkOutcome e g s ((e.checkRelation relation).map fun _ => (0, 0), e)
  /-- The records cannot be read, or the operator cannot go on. -/
  | stuck {op fault} (work : s.spec.work = .ok (.apply op))
      (applied : e.applyOperator g s op = .error fault) : WorkOutcome e g s (.error fault, e)
  /-- What the operator makes cannot be stored. -/
  | refused {op taken made fault storage} (work : s.spec.work = .ok (.apply op))
      (applied : e.applyOperator g s op = .ok (taken, made))
      (written : e.storage.writeOutput e.settings.environment s.step made =
        (.error fault, storage)) :
      WorkOutcome e g s (.error (.storage fault), { e with storage })
  /-- What the operator makes is stored. -/
  | stored {op taken made path storage} (work : s.spec.work = .ok (.apply op))
      (applied : e.applyOperator g s op = .ok (taken, made))
      (written : e.storage.writeOutput e.settings.environment s.step made = (.ok path, storage)) :
      WorkOutcome e g s (.ok (taken.length, made.length), { e with storage })

theorem workOutcome (e : Engine) (g : StageGraph) (s : Stage) :
    WorkOutcome e g s (e.doWork g s) := by
  cases work : s.spec.work with
  | error fault =>
      simp only [doWork, work]
      exact .unbuilt work
  | ok task =>
      cases task with
      | offer =>
          obtain ⟨relation, scan⟩ := StageSpec.eq_scan_of_offer work
          simp only [doWork, checkScan, scan]
          exact .offered scan
      | apply op =>
          cases applied : e.applyOperator g s op with
          | error fault =>
              simp only [doWork, work, applied]
              exact .stuck work applied
          | ok both =>
              cases written : e.storage.writeOutput e.settings.environment s.step both.2 with
              | mk outcome storage =>
                  simp only [doWork, work, applied, written]
                  cases outcome with
                  | error fault => exact .refused work applied written
                  | ok path => exact .stored work applied written

theorem WorkOutcome.settings_eq {result : Except RunFault (Nat × Nat) × Engine}
    (h : WorkOutcome e g s result) : result.2.settings = e.settings := by
  cases h <;> rfl

theorem settings_doWork (e : Engine) (g : StageGraph) (s : Stage) :
    (e.doWork g s).2.settings = e.settings :=
  (e.workOutcome g s).settings_eq

/-- An attempt is a failure that is asked for and changes nothing else, or the work of the
stage. -/
theorem attempt_cases (e : Engine) (g : StageGraph) (s : Stage) :
    (∃ failPoints, e.attempt g s = (.error (.stage s.step .injected), { e with failPoints })) ∨
      (e.failPoints.hit (startPoint s.label)).1 = false ∧ e.attempt g s = e.doWork g s := by
  unfold attempt
  cases hit : e.failPoints.hit (startPoint s.label) with
  | mk fails failPoints =>
      cases fails with
      | true => exact .inl ⟨failPoints, rfl⟩
      | false =>
          have same : e.failPoints = failPoints := by
            unfold FailPoints.hit at hit
            split at hit
            · cases hit
            · exact (Prod.mk.inj hit).2
          subst same
          exact .inr ⟨rfl, rfl⟩

theorem settings_attempt (e : Engine) (g : StageGraph) (s : Stage) :
    (e.attempt g s).2.settings = e.settings := by
  obtain ⟨failPoints, failed⟩ | ⟨-, works⟩ := e.attempt_cases g s
  · rw [failed]
  · rw [works]
    exact settings_doWork ..

theorem settings_runInOrder (e : Engine) (g : StageGraph) (stages : List Stage) :
    (e.runInOrder g stages).2.settings = e.settings :=
  runInOrder_invariant (P := fun x => x.settings = e.settings)
    (fun s _ x same => (settings_attempt x g s).trans same) rfl

theorem Reaches.settings_eq (h : e.Reaches g stages e') : e'.settings = e.settings := by
  obtain ⟨reports, ran⟩ := h
  have kept := settings_runInOrder e g stages
  rwa [ran] at kept

theorem reaches_nil : e.Reaches g [] e' ↔ e' = e := by
  constructor
  · rintro ⟨reports, ran⟩
    exact (congrArg Prod.snd ran).symm
  · rintro rfl
    exact ⟨[], rfl⟩

theorem runInOrder_concat_of_error (reached : e.Reaches g stages e₁) {fault : RunFault}
    (failed : e₁.runStage g s 0 e.settings.stageRetries = (.error fault, e')) :
    e.runInOrder g (stages ++ [s]) = (.error fault, e') := by
  rw [← reached.settings_eq] at failed
  obtain ⟨reports, first⟩ := reached
  rw [runInOrder_append_of_ok first, runInOrder_cons_of_error failed]
  rfl

theorem runInOrder_concat_of_ok {reports : List StageReport} {report : StageReport}
    (first : e.runInOrder g stages = (.ok reports, e₁))
    (last : e₁.runStage g s 0 e.settings.stageRetries = (.ok report, e')) :
    e.runInOrder g (stages ++ [s]) = (.ok (reports ++ [report]), e') := by
  have reached : e.Reaches g stages e₁ := ⟨reports, first⟩
  rw [← reached.settings_eq] at last
  rw [runInOrder_append_of_ok first, runInOrder_cons_of_ok last]
  rfl

theorem runInOrder_concat_eq_ok {reports : List StageReport}
    (h : e.runInOrder g (stages ++ [s]) = (.ok reports, e')) :
    ∃ e₁ earlier report, e.runInOrder g stages = (.ok earlier, e₁) ∧
      e₁.runStage g s 0 e.settings.stageRetries = (.ok report, e') ∧
      reports = earlier ++ [report] := by
  cases first : e.runInOrder g stages with
  | mk outcome e₁ =>
      cases outcome with
      | error fault =>
          rw [runInOrder_append_of_error first] at h
          cases h
      | ok earlier =>
          cases last : e₁.runStage g s 0 e.settings.stageRetries with
          | mk outcome e₂ =>
              cases outcome with
              | error fault =>
                  rw [runInOrder_concat_of_error ⟨earlier, first⟩ last] at h
                  cases h
              | ok report =>
                  rw [runInOrder_concat_of_ok first last] at h
                  cases h
                  exact ⟨e₁, earlier, report, rfl, last, rfl⟩

theorem reaches_concat : e.Reaches g (stages ++ [s]) e' ↔
    ∃ e₁ report, e.Reaches g stages e₁ ∧
      e₁.runStage g s 0 e.settings.stageRetries = (.ok report, e') := by
  constructor
  · rintro ⟨reports, ran⟩
    obtain ⟨e₁, earlier, report, first, last, -⟩ := runInOrder_concat_eq_ok ran
    exact ⟨e₁, report, ⟨earlier, first⟩, last⟩
  · rintro ⟨e₁, report, ⟨reports, first⟩, last⟩
    exact ⟨reports ++ [report], runInOrder_concat_of_ok first last⟩

/-- A run that fails gets through some stages and fails at the next one. -/
theorem exists_of_runInOrder_error {fault : RunFault}
    (h : e.runInOrder g stages = (.error fault, e')) :
    ∃ before s after e₁, stages = before ++ s :: after ∧ e.Reaches g before e₁ ∧
      e₁.runStage g s 0 e.settings.stageRetries = (.error fault, e') := by
  induction stages using List.reverseRecOn with
  | nil => cases h
  | append_singleton front s ih =>
      cases first : e.runInOrder g front with
      | mk outcome e₁ =>
          cases outcome with
          | error fault' =>
              rw [runInOrder_append_of_error first] at h
              cases h
              obtain ⟨before, t, after, e₂, rfl, reached, failed⟩ := ih first
              exact ⟨before, t, after ++ [s], e₂, by simp, reached, failed⟩
          | ok reports =>
              have reached : e.Reaches g front e₁ := ⟨reports, first⟩
              cases last : e₁.runStage g s 0 e.settings.stageRetries with
              | mk outcome e₂ =>
                  cases outcome with
                  | ok report =>
                      rw [runInOrder_concat_of_ok first last] at h
                      cases h
                  | error fault' =>
                      rw [runInOrder_concat_of_error reached last] at h
                      cases h
                      exact ⟨front, s, [], e₁, rfl, reached, last⟩

/-- A run fails where a stage that it gets to fails. -/
theorem runInOrder_of_runStage_error {before after : List Stage}
    (reached : e.Reaches g before e₁) {fault : RunFault}
    (failed : e₁.runStage g s 0 e.settings.stageRetries = (.error fault, e')) :
    e.runInOrder g (before ++ s :: after) = (.error fault, e') := by
  rw [List.append_cons]
  exact runInOrder_append_of_error (runInOrder_concat_of_error reached failed)

/-- A run of a graph begins an attempt at a stage in a state. -/
def Tries (e : Engine) (g : StageGraph) (s : Stage) (x : Engine) : Prop :=
  ∃ before after e₁, g.schedule = before ++ s :: after ∧ e.Reaches g before e₁ ∧
    x ∈ e₁.attemptStates g s e.settings.stageRetries

theorem Tries.settings_eq {x : Engine} (h : e.Tries g s x) : x.settings = e.settings := by
  obtain ⟨before, after, e₁, -, reached, hx⟩ := h
  refine attemptStates_invariant (P := fun x => x.settings = e.settings) ?_ reached.settings_eq
    _ x hx
  intro y _ same _
  rw [settings_attempt, same]

/-- In a run of a graph, the operator of a stage makes some records. -/
def Makes (e : Engine) (g : StageGraph) (s : Stage) (made : List Record) : Prop :=
  ∃ x op taken, e.Tries g s x ∧ (x.failPoints.hit (startPoint s.label)).1 = false ∧
    s.spec.work = .ok (.apply op) ∧ x.applyOperator g s op = .ok (taken, made)

/-- What holds at the start and is kept by each stage that succeeds holds wherever a run gets. -/
theorem Reaches.invariant {P : List Stage → Engine → Prop} (start : P [] e)
    (step : ∀ before s after e₁ e₂ report, stages = before ++ s :: after → e.Reaches g before e₁ →
      P before e₁ → e₁.runStage g s 0 e.settings.stageRetries = (.ok report, e₂) →
        P (before ++ [s]) e₂)
    {before after : List Stage} (order : stages = before ++ after)
    (reached : e.Reaches g before e') : P before e' := by
  induction before using List.reverseRecOn generalizing e' after with
  | nil =>
      rw [reaches_nil] at reached
      rwa [reached]
  | append_singleton front s ih =>
      obtain ⟨e₁, report, earlier, last⟩ := reaches_concat.mp reached
      have split : stages = front ++ s :: after := by simpa using order
      exact step front s after e₁ e' report split earlier (ih split earlier) last

/-- Every stage of a run that succeeds has succeeded. -/
theorem exists_tries_of_run (valid : g.Valid) {out : RunOutput} (ran : (e.run g).1 = .ok out)
    (hs : s ∈ g.stages) : ∃ x counts, e.Tries g s x ∧ (x.attempt g s).1 = .ok counts := by
  obtain ⟨e', whole, -⟩ := exists_runInOrder_of_run valid ran
  have all : ∀ t ∈ g.schedule, ∃ x counts, e.Tries g t x ∧ (x.attempt g t).1 = .ok counts := by
    refine Reaches.invariant (P := fun done _ => ∀ t ∈ done, ∃ x counts, e.Tries g t x ∧
      (x.attempt g t).1 = .ok counts) (by simp) ?_ (List.append_nil g.schedule).symm
      ⟨out.reports, whole⟩
    intro before s after e₁ e₂ report split reached earlier last t ht
    rcases List.mem_append.mp ht with ht | ht
    · exact earlier t ht
    · obtain ⟨x, hx, taken, made, succeeds, -⟩ := runStage_eq_ok last
      rw [List.mem_singleton.mp ht]
      exact ⟨x, (taken, made), ⟨before, after, e₁, split, reached, hx⟩, by rw [succeeds]⟩
  exact all s (valid.mem_schedule_iff.mpr hs)

/-- Records cannot be read because their step is no stage, or because of the storage. -/
theorem stepRecords_eq_error {step : StepId} {fault : RunFault}
    (h : e.stepRecords g step = .error fault) :
    (g.stage? step = none ∧ fault = .noStage step) ∨ ∃ reason, fault = .storage reason := by
  unfold stepRecords at h
  split at h
  · rename_i unknown
    cases h
    exact .inl ⟨unknown, rfl⟩
  · right
    split at h
    · obtain ⟨reason, -, rfl⟩ := mapError_eq_error_iff.mp h
      exact ⟨reason, rfl⟩
    · obtain ⟨reason, -, rfl⟩ := mapError_eq_error_iff.mp h
      exact ⟨reason, rfl⟩

theorem exists_of_inputRecords_error {inputs : List StepId} {fault : RunFault}
    (h : e.inputRecords g inputs = .error fault) :
    ∃ i ∈ inputs, e.stepRecords g i = .error fault := by
  induction inputs with
  | nil => cases h
  | cons i rest ih =>
      rw [inputRecords] at h
      split at h
      · rename_i read
        cases h
        exact ⟨i, List.mem_cons_self .., read⟩
      · obtain ⟨j, hj, read⟩ := ih (map_eq_error_iff.mp h)
        exact ⟨j, List.mem_cons_of_mem _ hj, read⟩

/-- An error of a run that finds nothing wrong with the graph is one of an attempt or of reading
the result. -/
theorem exists_tries_of_run_error (valid : g.Valid) {fault : RunFault}
    (h : (e.run g).1 = .error fault) :
    (∃ s x, e.Tries g s x ∧ (x.attempt g s).1 = .error fault) ∨
      ∃ x : Engine, x.stepRecords g g.root = .error fault := by
  have stages : (e.runStages g).1 = .error fault := by rwa [← fst_run]
  cases ran : e.runInOrder g g.schedule with
  | mk outcome e₁ =>
      cases outcome with
      | ok reports =>
          rw [runStages_of_ok valid ran, map_eq_error_iff] at stages
          exact .inr ⟨e₁, stages⟩
      | error other =>
          rw [runStages_of_error valid ran] at stages
          cases stages
          obtain ⟨before, s, after, e₂, order, reached, failed⟩ := exists_of_runInOrder_error ran
          rw [← reached.settings_eq] at failed
          obtain ⟨x, hx, last⟩ := runStage_eq_error failed
          refine .inl ⟨s, x, ⟨before, after, e₂, order, reached, ?_⟩, by rw [last]⟩
          rwa [← reached.settings_eq]

end Engine

end StagedAlgebra
