import StagedAlgebra.Proofs.EngineRuns
import StagedAlgebra.Proofs.Schedules
import StagedAlgebra.Proofs.StorageFrames

/-!
# What holds of the records of every stage

A property of the records of plans that relations have, that operators keep and that files do not
lose holds of all records that the stages of a compiled plan ever take and make: in every attempt
at every stage of every run, over any storage, whether the run succeeds or not.

## Implementation notes

The invariant of a run is about contents, not about what can be read. Files of relations are what
they were or are gone, and the outputs of the stages that are done hold records with the property.
A stage that takes records has read them just before it stores its own, so the folder of the
storage can be entered then, and old parts of its output are really gone.

Relations are read long after the start, but they were found at the start: the stages without
inputs come first, and until the last of them has succeeded nothing is written.
-/

namespace StagedAlgebra

variable {good : Plan → List Record → Prop}

/-- Records taken from the inputs of an operator one after another, with a property of the records
of each. -/
def Plan.TakenFrom (good : Plan → List Record → Prop) : List Plan → List Record → Prop
  | [], taken => taken = []
  | p :: rest, taken =>
    ∃ first others, good p first ∧ TakenFrom good rest others ∧ taken = first ++ others

theorem Plan.TakenFrom.exists_of_mem {inputs : List Plan} {taken : List Record}
    (h : TakenFrom good inputs taken) {p : Plan} (hp : p ∈ inputs) : ∃ records, good p records := by
  induction inputs generalizing taken with
  | nil => cases hp
  | cons q rest ih =>
      obtain ⟨first, others, property, more, -⟩ := h
      rcases List.mem_cons.mp hp with rfl | hp
      · exact ⟨first, property⟩
      · exact ih more hp

/-- Operators and files keep a property of the records of a plan. -/
structure Plan.Carries (p : Plan) (good : Plan → List Record → Prop) : Prop where
  /-- What an operator makes has the property if what it takes does. -/
  operate : ∀ spec op, p.spec? = some spec → spec.work = .ok (.apply op) → ∀ taken made,
    TakenFrom good p.inputs taken → op.run taken = .ok made → good p made
  /-- What is read from a file has the property if what was written does. -/
  stored : ∀ made, good p made → ∀ path records,
    decodeRecords path (encodeRecords made) = .ok records → good p records

/-- Every stage of a compiled plan is that of a node. -/
theorem exists_node_of_stage {p : Plan} {start : StepId} {g : StageGraph}
    (compiled : p.compileFrom start = .ok g) {s : Stage} (hs : s ∈ g.stages) :
    ∃ n ∈ p.numbered start, n.stage? = some s := by
  obtain ⟨-, -, stages, permuted, all⟩ := compileFrom_eq_ok compiled
  exact exists_of_forall₂_of_mem all.flip (permuted.mem_iff.mp hs)

/-- Every node of a compiled plan is scheduled. -/
theorem exists_scheduled {p : Plan} {start : StepId} {g : StageGraph}
    (compiled : p.compileFrom start = .ok g) {n : PlanNode} (hn : n ∈ p.numbered start) :
    ∃ s ∈ g.schedule, n.stage? = some s := by
  obtain ⟨s, hs, stage, -⟩ := exists_stage_of_mem_numbered compiled hn
  exact ⟨s, (compileFrom_eq_ok compiled).1.mem_schedule_iff.mpr hs, stage⟩

namespace PlanNode

variable {n : PlanNode} {s : Stage}

theorem inputs_of_stage? (h : n.stage? = some s) : s.inputs = n.children.map (·.step) := by
  obtain ⟨spec, -, rfl⟩ := Option.map_eq_some_iff.mp h
  rfl

theorem inputs_eq_nil_iff (h : n.stage? = some s) : s.inputs = [] ↔ n.isScan = true := by
  rw [inputs_of_stage? h, List.map_eq_nil_iff]
  obtain ⟨spec, hspec, -⟩ := Option.map_eq_some_iff.mp h
  cases n with
  | mk step plan => cases plan <;> simp [children, isScan, Plan.kind]

theorem spec_eq_scan_iff {relation : String} (h : n.stage? = some s) :
    s.spec = .scan relation ↔ n.plan = .scan relation := by
  obtain ⟨spec, hspec, rfl⟩ := Option.map_eq_some_iff.mp h
  cases plan : n.plan <;> rw [plan] at hspec <;> cases hspec <;> simp

theorem inputs_ne_nil_of_apply {op : Operator} (h : n.stage? = some s)
    (work : s.spec.work = .ok (.apply op)) : s.inputs ≠ [] := by
  rw [ne_eq, inputs_eq_nil_iff h, isScan_eq_true_iff]
  rintro ⟨relation, plan⟩
  rw [(spec_eq_scan_iff h).mpr plan] at work
  cases work

end PlanNode

namespace Engine

variable {p : Plan} {start : StepId} {g : StageGraph} {e x : Engine} {s : Stage}
variable {first : Storage}

theorem storage_attempt_of_scan {relation : String} (scan : s.spec = .scan relation)
    (e : Engine) (g : StageGraph) : (e.attempt g s).2.storage = e.storage := by
  obtain ⟨failPoints, failed⟩ | ⟨-, works⟩ := e.attempt_cases g s
  · rw [failed]
  · rw [works, doWork, scan]
    rfl

theorem contains_of_attempt {relation : String} (scan : s.spec = .scan relation)
    {counts : Nat × Nat} {e' : Engine} (h : e.attempt g s = (.ok counts, e')) :
    e.storage.contains (relationPath relation) = true := by
  obtain ⟨failPoints, failed⟩ | ⟨-, works⟩ := e.attempt_cases g s
  · rw [failed] at h
    cases h
  · rw [works, doWork, scan] at h
    by_contra missing
    simp [StageSpec.work, checkScan, scan, checkRelation, missing, Except.map] at h

theorem inputs_eq_nil_iff (compiled : p.compileFrom start = .ok g) (hs : s ∈ g.stages) :
    s.inputs = [] ↔ ∃ relation, s.spec = .scan relation := by
  obtain ⟨n, -, stage⟩ := exists_node_of_stage compiled hs
  rw [PlanNode.inputs_eq_nil_iff stage, isScan_eq_true_iff]
  simp only [PlanNode.spec_eq_scan_iff stage]

/-- Wherever a run gets, the relations of the stages done were found at the start, and only stages
with inputs have written anything. -/
theorem found_at_start (compiled : p.compileFrom start = .ok g)
    {before after : List Stage} (order : g.schedule = before ++ after)
    (reached : e.Reaches g before x) :
    ((∀ t ∈ before, t.inputs = []) → x.storage = e.storage) ∧
      ∀ t ∈ before, ∀ relation, t.spec = .scan relation →
        e.storage.contains (relationPath relation) = true := by
  refine Reaches.invariant (P := fun done x =>
    ((∀ t ∈ done, t.inputs = []) → x.storage = e.storage) ∧
      ∀ t ∈ done, ∀ relation, t.spec = .scan relation →
        e.storage.contains (relationPath relation) = true) ⟨fun _ => rfl, by simp⟩ ?_ order reached
  have valid := (compileFrom_eq_ok compiled).1
  rintro before s after e₁ e₂ report split - ⟨unchanged, found⟩ ran
  have hs : s ∈ g.stages := valid.mem_schedule_iff.mp (by simp [split])
  -- A stage without inputs comes when nothing has been written yet, and writes nothing.
  have source {relation : String} (scan : s.spec = .scan relation) :
      e₂.storage = e.storage ∧ e.storage.contains (relationPath relation) = true := by
    have none_taken := (inputs_eq_nil_iff compiled hs).mpr ⟨relation, scan⟩
    have same := unchanged (valid.sources_first split none_taken)
    obtain ⟨y, hy, taken, made, last, -⟩ := runStage_eq_ok ran
    have begins : y.storage = e.storage := by
      refine attemptStates_invariant (P := fun y => y.storage = e.storage) ?_ same _ y hy
      intro z _ equal _
      rw [storage_attempt_of_scan scan, equal]
    have ends := storage_attempt_of_scan scan y g
    rw [last] at ends
    exact ⟨ends.trans begins, begins ▸ contains_of_attempt scan last⟩
  constructor
  · intro all
    obtain ⟨relation, scan⟩ := (inputs_eq_nil_iff compiled hs).mp (all s (by simp))
    exact (source scan).1
  · intro t ht relation scan
    rcases List.mem_append.mp ht with ht | ht
    · exact found t ht relation scan
    · rw [List.mem_singleton.mp ht] at scan
      exact (source scan).2

theorem applyOperator_eq_ok {op : Operator} {taken made : List Record}
    (h : x.applyOperator g s op = .ok (taken, made)) :
    x.inputRecords g s.inputs = .ok taken ∧ op.run taken = .ok made := by
  unfold applyOperator at h
  split at h
  · cases h
  rename_i read
  split at h
  · cases h
  rename_i ran
  cases h
  exact ⟨read, ran⟩

/-- A stage with inputs that succeeds has taken their records. -/
theorem exists_inputRecords_of_attempt (some_input : s.inputs ≠ [])
    (scans : ∀ relation, s.spec = .scan relation → s.inputs = []) {counts : Nat × Nat}
    (h : (x.attempt g s).1 = .ok counts) : ∃ taken, x.inputRecords g s.inputs = .ok taken := by
  obtain ⟨failPoints, failed⟩ | ⟨-, works⟩ := x.attempt_cases g s
  · rw [failed] at h
    cases h
  rw [works] at h
  have outcome := x.workOutcome g s
  generalize x.doWork g s = result at outcome h
  cases outcome with
  | unbuilt | stuck | refused => cases h
  | @offered relation scan => exact absurd (scans relation scan) some_input
  | stored work applied => exact ⟨_, (applyOperator_eq_ok applied).1⟩

theorem open_of_stepRecords {step : StepId} {records : List Record}
    (h : x.stepRecords g step = .ok records) : x.storage.Open := by
  unfold stepRecords at h
  split at h
  · cases h
  · split at h
    · exact Storage.open_of_readRelation (mapError_eq_ok_iff.mp h)
    · exact Storage.open_of_readOutput (mapError_eq_ok_iff.mp h)

theorem open_of_inputRecords {inputs : List StepId} (some_input : inputs ≠ [])
    {records : List Record} (h : x.inputRecords g inputs = .ok records) : x.storage.Open := by
  cases inputs with
  | nil => exact absurd rfl some_input
  | cons step rest =>
      unfold inputRecords at h
      split at h
      · cases h
      · rename_i read
        exact open_of_stepRecords read

/-- The contents in a state of a run in which some stages are done: relations are what they were
in the first storage, and outputs have a property. -/
structure Carried (good : Plan → List Record → Prop) (nodes : List PlanNode) (first : Storage)
    (settings : Settings) (done : List StepId) (x : Engine) : Prop where
  /-- The settings are those of the start. -/
  settings_eq : x.settings = settings
  /-- No relation is new. -/
  relations : ∀ relation content, x.storage.HoldsRelation relation content →
    first.HoldsRelation relation content
  /-- The outputs that are done hold records with the property. -/
  outputs : ∀ n ∈ nodes, n.step ∈ done → n.isScan = false → ∃ made, good n.plan made ∧
    x.storage.HoldsOutput settings.environment n.step (encodeRecords made)

section Flow

variable {settings : Settings} {done : List StepId}
variable (compiled : p.compileFrom start = .ok g)
variable (carries : ∀ n ∈ p.numbered start, n.plan.Carries good)
variable (relations : ∀ n ∈ p.numbered start, ∀ relation, n.plan = .scan relation →
  ∀ records, first.readRelation relation = .ok records → good n.plan records)

include compiled carries relations in
/-- What is read as the records of a step has the property. -/
theorem Carried.stepRecords
    (h : Carried good (p.numbered start) first settings done x) {m : PlanNode}
    (hm : m ∈ p.numbered start) (ready : m.step ∈ done)
    (found : ∀ relation, m.plan = .scan relation →
      first.contains (relationPath relation) = true) {records : List Record}
    (read : x.stepRecords g m.step = .ok records) : good m.plan records := by
  obtain ⟨s, -, stage, known⟩ := exists_stage_of_mem_numbered compiled hm
  rw [Engine.stepRecords, known] at read
  dsimp only at read
  by_cases scan : m.isScan = true
  · obtain ⟨relation, plan⟩ := isScan_eq_true_iff.mp scan
    rw [(PlanNode.spec_eq_scan_iff stage).mpr plan] at read
    obtain ⟨content, held, decoded⟩ :=
      Storage.holdsRelation_of_readRelation (mapError_eq_ok_iff.mp read)
    have before := Storage.readRelation_of_holdsRelation (found relation plan)
      (h.relations relation content held)
    rw [decoded] at before
    exact relations m hm relation plan records before
  · have other : m.isScan = false := by simpa using scan
    obtain ⟨made, property, held⟩ := h.outputs m hm ready other
    have outputRead : x.storage.readOutput settings.environment m.step = .ok records := by
      rw [← h.settings_eq]
      split at read
      · rename_i relation spec
        have plan := (PlanNode.spec_eq_scan_iff stage).mp spec
        exact absurd (isScan_eq_true_iff.mpr ⟨relation, plan⟩) scan
      · exact mapError_eq_ok_iff.mp read
    obtain ⟨path, decoded⟩ := Storage.decode_of_readOutput held outputRead
    exact (carries m hm).stored made property path records decoded

include compiled carries relations in
theorem Carried.inputRecords
    (h : Carried good (p.numbered start) first settings done x) {ms : List PlanNode}
    (hms : ∀ m ∈ ms, m ∈ p.numbered start ∧ m.step ∈ done ∧ ∀ relation,
      m.plan = .scan relation → first.contains (relationPath relation) = true)
    {taken : List Record} (read : x.inputRecords g (ms.map (·.step)) = .ok taken) :
    Plan.TakenFrom good (ms.map (·.plan)) taken := by
  induction ms generalizing taken with
  | nil =>
      cases read
      rfl
  | cons m rest ih =>
      obtain ⟨hm, ready, found⟩ := hms m (by simp)
      rw [List.map_cons, Engine.inputRecords] at read
      cases one : x.stepRecords g m.step with
      | error fault => simp [one] at read
      | ok records =>
          rw [one] at read
          obtain ⟨others, more, rfl⟩ := map_eq_ok_iff.mp read
          exact ⟨records, others, h.stepRecords compiled carries relations hm ready found one,
            ih (fun m hm => hms m (by simp [hm])) more, rfl⟩

/-- A stage of a run that is about to be tried: the nodes of its inputs are done, and all
relations were found at the start. -/
structure Ready (p : Plan) (start : StepId) (first : Storage) (done : List StepId) (n : PlanNode)
    (s : Stage) : Prop where
  /-- It is the stage of a node. -/
  node : n ∈ p.numbered start
  /-- The node becomes the stage. -/
  stage : n.stage? = some s
  /-- The stage is not done yet. -/
  fresh : n.step ∉ done
  /-- Its inputs are done. -/
  inputs : ∀ m ∈ n.children, m.step ∈ done
  /-- The relations that it takes were found. -/
  found : ∀ m ∈ n.children, ∀ relation, m.plan = .scan relation →
    first.contains (relationPath relation) = true

include compiled carries relations in
/-- What a stage takes has the property. -/
theorem Carried.taken (h : Carried good (p.numbered start) first settings done x) {n : PlanNode}
    (ready : Ready p start first done n s) {taken : List Record}
    (read : x.inputRecords g s.inputs = .ok taken) : Plan.TakenFrom good n.plan.inputs taken := by
  rw [PlanNode.inputs_of_stage? ready.stage] at read
  rw [← map_plan_children]
  exact h.inputRecords compiled carries relations
    (fun m hm => ⟨Plan.children_mem_numbered ready.node hm, ready.inputs m hm, ready.found m hm⟩)
    read

include compiled carries relations in
/-- What a stage makes has the property. -/
theorem Carried.made (h : Carried good (p.numbered start) first settings done x) {n : PlanNode}
    (ready : Ready p start first done n s) {op : Operator} (work : s.spec.work = .ok (.apply op))
    {taken made : List Record} (applied : x.applyOperator g s op = .ok (taken, made)) :
    good n.plan made := by
  obtain ⟨read, ran⟩ := applyOperator_eq_ok applied
  obtain ⟨spec, hspec, rfl⟩ := Option.map_eq_some_iff.mp ready.stage
  exact (carries n ready.node).operate spec op hspec work _ _
    (h.taken compiled carries relations ready read) ran

theorem Carried.write (h : Carried good (p.numbered start) first settings done x) {n : PlanNode}
    (ready : Ready p start first done n s) {made : List Record}
    {outcome : Except StorageFault String} {storage : Storage}
    (written : x.storage.writeOutput x.settings.environment s.step made = (outcome, storage)) :
    Carried good (p.numbered start) first settings done { x with storage } where
  settings_eq := h.settings_eq
  relations relation content held :=
    h.relations relation content (Storage.holdsRelation_of_writeOutput written held)
  outputs m hm before other := by
    obtain ⟨records, property, held⟩ := h.outputs m hm before other
    rw [h.settings_eq, step_of_stage? ready.stage] at written
    have apart : m.step ≠ n.step := fun same => ready.fresh (same ▸ before)
    exact ⟨records, property, held.writeOutput apart written⟩

include compiled in
theorem Carried.extend (h : Carried good (p.numbered start) first settings done x) {n : PlanNode}
    (hn : n ∈ p.numbered start)
    (output : n.isScan = false → ∃ made, good n.plan made ∧
      x.storage.HoldsOutput settings.environment n.step (encodeRecords made)) :
    Carried good (p.numbered start) first settings (done ++ [n.step]) x :=
  { h with
    outputs := fun m hm before other => by
      rcases List.mem_append.mp before with before | before
      · exact h.outputs m hm before other
      · have same : m = n := List.inj_on_of_nodup_map (nodup_map_step_numbered compiled) hm hn
          (List.mem_singleton.mp before)
        rw [same] at other ⊢
        exact output other }

include compiled carries relations in
/-- Work keeps the invariant, and extends it by its stage if it succeeds. -/
theorem WorkOutcome.carried {result : Except RunFault (Nat × Nat) × Engine}
    (work : WorkOutcome x g s result)
    (h : Carried good (p.numbered start) first settings done x) {n : PlanNode}
    (ready : Ready p start first done n s) :
    Carried good (p.numbered start) first settings done result.2 ∧ ∀ counts,
      result.1 = .ok counts →
        Carried good (p.numbered start) first settings (done ++ [n.step]) result.2 := by
  cases work with
  | unbuilt | stuck =>
      refine ⟨h, fun counts ok => ?_⟩
      cases ok
  | @offered relation scan =>
      refine ⟨h, fun counts _ => h.extend compiled ready.node fun other => ?_⟩
      have plan := isScan_eq_true_iff.mpr
        ⟨relation, (PlanNode.spec_eq_scan_iff ready.stage).mp scan⟩
      rw [plan] at other
      cases other
  | refused _ _ written =>
      refine ⟨h.write ready written, fun counts ok => ?_⟩
      cases ok
  | stored work applied written =>
      have kept := h.write ready written
      refine ⟨kept, fun counts _ => kept.extend compiled ready.node fun _ => ?_⟩
      have opens := open_of_inputRecords (PlanNode.inputs_ne_nil_of_apply ready.stage work)
        (applyOperator_eq_ok applied).1
      rw [h.settings_eq, step_of_stage? ready.stage] at written
      exact ⟨_, h.made compiled carries relations ready work applied,
        Storage.holdsOutput_of_writeOutput opens written⟩

include compiled carries relations in
theorem Carried.attempt (h : Carried good (p.numbered start) first settings done x) {n : PlanNode}
    (ready : Ready p start first done n s) :
    Carried good (p.numbered start) first settings done (x.attempt g s).2 ∧ ∀ counts,
      (x.attempt g s).1 = .ok counts →
        Carried good (p.numbered start) first settings (done ++ [n.step]) (x.attempt g s).2 := by
  obtain ⟨failPoints, failed⟩ | ⟨-, works⟩ := x.attempt_cases g s
  · rw [failed]
    refine ⟨⟨h.settings_eq, h.relations, h.outputs⟩, fun counts ok => ?_⟩
    cases ok
  · rw [works]
    exact (x.workOutcome g s).carried compiled carries relations h ready

include compiled in
/-- The stage that comes next in a schedule is that of a node, whose inputs came before. -/
theorem exists_next {before after : List Stage} (order : g.schedule = before ++ s :: after) :
    ∃ n ∈ p.numbered start, n.stage? = some s ∧ n.step ∉ before.map (·.step) ∧
      ∀ m ∈ n.children, ∃ t ∈ before, m.stage? = some t := by
  have valid := (compileFrom_eq_ok compiled).1
  have hs : s ∈ g.stages := valid.mem_schedule_iff.mp (by simp [order])
  obtain ⟨n, hn, stage⟩ := exists_node_of_stage compiled hs
  refine ⟨n, hn, stage, fun earlier => ?_, fun m hm => ?_⟩
  · obtain ⟨t, ht, same⟩ := List.mem_map.mp earlier
    exact valid.step_ne_of_before order ht (same.trans (step_of_stage? stage).symm)
  · have taken : m.step ∈ s.inputs := by
      rw [PlanNode.inputs_of_stage? stage]
      exact List.mem_map.mpr ⟨m, hm, rfl⟩
    obtain ⟨t, ht, same⟩ := valid.exists_input_before order taken
    obtain ⟨u, -, found, known⟩ :=
      exists_stage_of_mem_numbered compiled (Plan.children_mem_numbered hn hm)
    have known' : g.stage? t.step = some t :=
      valid.stages.stageAt?_of_mem (valid.mem_schedule_iff.mp (by simp [order, ht]))
    rw [same, known, Option.some.injEq] at known'
    exact ⟨t, ht, known' ▸ found⟩

include compiled in
/-- The stage that comes next in a run is ready. -/
theorem exists_ready {before after : List Stage} (order : g.schedule = before ++ s :: after)
    (reached : e.Reaches g before x) :
    ∃ n, Ready p start e.storage (before.map (·.step)) n s := by
  obtain ⟨n, hn, stage, fresh, inputs⟩ := exists_next compiled order
  refine ⟨n, hn, stage, fresh, fun m hm => ?_, fun m hm relation plan => ?_⟩
  · obtain ⟨t, ht, found⟩ := inputs m hm
    exact List.mem_map.mpr ⟨t, ht, step_of_stage? found⟩
  · obtain ⟨t, ht, found⟩ := inputs m hm
    exact (found_at_start compiled order reached).2 t ht relation
      ((PlanNode.spec_eq_scan_iff found).mpr plan)

end Flow

section Runs

variable (compiled : p.compileFrom start = .ok g)
variable (carries : ∀ n ∈ p.numbered start, n.plan.Carries good)
variable (relations : ∀ n ∈ p.numbered start, ∀ relation, n.plan = .scan relation →
  ∀ records, e.storage.readRelation relation = .ok records → good n.plan records)

include compiled carries relations in
/-- Wherever a run gets, the outputs of the stages done have the property. -/
theorem Reaches.carried {before after : List Stage} (order : g.schedule = before ++ after)
    (reached : e.Reaches g before x) :
    Carried good (p.numbered start) e.storage e.settings (before.map (·.step)) x := by
  refine Reaches.invariant (P := fun done x =>
    Carried good (p.numbered start) e.storage e.settings (done.map (·.step)) x)
    ⟨rfl, fun _ _ held => held, by simp⟩ ?_ order reached
  intro before s after e₁ e₂ report split earlier carried ran
  obtain ⟨n, ready⟩ := exists_ready compiled split earlier
  obtain ⟨y, hy, taken, made, last, -⟩ := runStage_eq_ok ran
  have begins := attemptStates_invariant
    (fun z _ kept _ => (kept.attempt compiled carries relations ready).1) carried _ y hy
  have ends := (begins.attempt compiled carries relations ready).2 (taken, made) (by rw [last])
  rw [last] at ends
  rwa [List.map_append, List.map_singleton, step_of_stage? ready.stage]

include compiled carries relations in
/-- Every attempt begins with the property in all that it can take. -/
theorem Tries.carried (h : e.Tries g s x) :
    ∃ n done, Ready p start e.storage done n s ∧
      Carried good (p.numbered start) e.storage e.settings done x := by
  obtain ⟨before, after, e₁, order, reached, hx⟩ := h
  obtain ⟨n, ready⟩ := exists_ready compiled order reached
  have carried := reached.carried compiled carries relations order
  exact ⟨n, before.map (·.step), ready, attemptStates_invariant
    (fun z _ kept _ => (kept.attempt compiled carries relations ready).1) carried _ x hx⟩

include compiled carries relations in
/-- In a run that succeeds, records with the property have been read of every node. -/
theorem exists_good_of_run {out : RunOutput} (ran : (e.run g).1 = .ok out) {n : PlanNode}
    (hn : n ∈ p.numbered start) : ∃ records, good n.plan records := by
  obtain ⟨valid, root, -⟩ := compileFrom_eq_ok compiled
  obtain rfl | ⟨m, hm, child⟩ := Plan.eq_root_or_exists_parent hn
  · obtain ⟨e', whole, read⟩ := exists_runInOrder_of_run valid ran
    have order : g.schedule = g.schedule ++ [] := (List.append_nil _).symm
    have reached : e.Reaches g g.schedule e' := ⟨out.reports, whole⟩
    obtain ⟨s, scheduled, stage⟩ := exists_scheduled compiled hn
    have done : start ∈ g.schedule.map (·.step) :=
      List.mem_map.mpr ⟨s, scheduled, step_of_stage? stage⟩
    rw [root] at read
    exact ⟨_, (reached.carried compiled carries relations order).stepRecords compiled carries
      relations hn done (fun relation plan => (found_at_start compiled order reached).2 s scheduled
        relation ((PlanNode.spec_eq_scan_iff stage).mpr plan)) read⟩
  · obtain ⟨s, hs, stage, -⟩ := exists_stage_of_mem_numbered compiled hm
    have inputs := PlanNode.inputs_of_stage? stage
    have some_input : s.inputs ≠ [] := by
      rw [inputs]
      exact List.ne_nil_of_mem (List.mem_map_of_mem child)
    obtain ⟨x, counts, tried, succeeds⟩ := exists_tries_of_run valid ran hs
    obtain ⟨taken, read⟩ := exists_inputRecords_of_attempt some_input (fun relation scan =>
      (inputs_eq_nil_iff compiled hs).mpr ⟨relation, scan⟩) succeeds
    obtain ⟨m', done, ready, carried⟩ := tried.carried compiled carries relations
    have same : m' = m := List.inj_on_of_nodup_map (nodup_map_step_numbered compiled) ready.node hm
      ((step_of_stage? ready.stage).symm.trans (step_of_stage? stage))
    rw [same] at ready
    refine (carried.taken compiled carries relations ready read).exists_of_mem ?_
    rw [← map_plan_children]
    exact List.mem_map_of_mem child

end Runs

end Engine

end StagedAlgebra
