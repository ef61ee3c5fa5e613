import StagedAlgebra.Engine
import StagedAlgebra.Proofs.CompiledPlans
import StagedAlgebra.Proofs.StoredOutputs

/-!
# Runs of engines

Running the graph of a plan over a storage in memory gives what direct execution of the plan
gives. It succeeds exactly if direct execution does, with the same records and one report for
every node, whatever was stored before.

## Implementation notes

`RunState` is the invariant of a run: settings and relations are as they were at the start, and
the stored outputs of the steps that are done are those of direct execution. One stage either
extends it by its step, or fails with everything unchanged, and then direct execution fails at
its node too. Retries repeat such a failure. Waves keep the invariant by induction, because the
inputs of a stage are done before its wave.
-/

namespace StagedAlgebra

/-- What the stage of a node reports if it succeeds at once. -/
def PlanNode.report (read : String → Except StorageFault (List Record)) (n : PlanNode) :
    StageReport :=
  match n.plan with
  | .scan _ => ⟨n.step, .scan, 0, 0, 1⟩
  | _ => ⟨n.step, n.plan.kind, Plan.count (Plan.directAll read n.plan.inputs),
      Plan.count (n.plan.direct read), 1⟩

/-- No failure is asked for. -/
def FailPoints.Idle (p : FailPoints) : Prop :=
  ∀ name, (p.left.get? name).getD 0 = 0

theorem FailPoints.Idle.hit {p : FailPoints} (h : p.Idle) (name : String) :
    p.hit name = (false, p) := by
  have none_left := h name
  unfold FailPoints.hit
  split
  · rename_i left some_left
    simp [some_left] at none_left
  · rfl

/-- The nodes of a plan with their stages in a graph, and what their outputs need to be stored. -/
structure Deployed (g : StageGraph) (nodes : List PlanNode)
    (read : String → Except StorageFault (List Record)) (environment : Environment) : Prop where
  /-- Every node has its stage. -/
  stage : ∀ n ∈ nodes, ∃ s, n.stage? = some s ∧ g.stage? n.step = some s
  /-- Nodes with one number are equal. -/
  step_inj : ∀ n ∈ nodes, ∀ m ∈ nodes, n.step = m.step → n = m
  /-- The inputs of nodes are nodes. -/
  children : ∀ n ∈ nodes, ∀ m ∈ n.children, m ∈ nodes
  /-- What is stored can be read back. -/
  storable : ∀ n ∈ nodes, n.isScan = false → ∀ records, n.plan.direct read = .ok records →
    ∀ r ∈ records, FitsLine r.label ∧ r.ReadsBack
  /-- No relation is stored where an output is. -/
  apart : ∀ n ∈ nodes, n.isScan = false → ∀ m ∈ nodes, ∀ relation, m.plan = .scan relation →
    isAtOrBelow (outputPath environment n.step) (relationPath relation) = false

/-- The state of a run in which some steps are done. -/
structure RunState (nodes : List PlanNode) (read : String → Except StorageFault (List Record))
    (settings : Settings) (done : List StepId) (e : Engine) : Prop where
  /-- The settings are those of the start. -/
  settings_eq : e.settings = settings
  /-- No failure is asked for. -/
  idle : e.failPoints.Idle
  /-- Objects are in memory. -/
  memory : ∃ objects, e.storage = .memory objects
  /-- Relations are what they were. -/
  relations : ∀ n ∈ nodes, ∀ relation, n.plan = .scan relation →
    e.storage.readRelation relation = read relation
  /-- The outputs of the steps that are done are stored. -/
  outputs : ∀ n ∈ nodes, n.step ∈ done → n.isScan = false →
    ∃ records, n.plan.direct read = .ok records ∧
      e.storage.readOutput settings.environment n.step = .ok records

section Runs

variable {g : StageGraph} {nodes : List PlanNode}
variable {read : String → Except StorageFault (List Record)} {settings : Settings}
variable {done : List StepId} {e : Engine}

theorem isScan_eq_true_iff {n : PlanNode} :
    n.isScan = true ↔ ∃ relation, n.plan = .scan relation := by
  cases n with
  | mk step plan => cases plan <;> simp [PlanNode.isScan, Plan.kind]

theorem map_plan_children (n : PlanNode) : n.children.map (·.plan) = n.plan.inputs := by
  cases n with
  | mk step plan => cases plan <;> rfl

/-- The records of a step that is done are those of direct execution. -/
theorem stepRecords_eq_ok_iff (deployed : Deployed g nodes read settings.environment)
    (state : RunState nodes read settings done e) {m : PlanNode} (hm : m ∈ nodes)
    (ready : m.step ∈ done) {records : List Record} :
    e.stepRecords g m.step = .ok records ↔ m.plan.direct read = .ok records := by
  obtain ⟨s, stage, found⟩ := deployed.stage m hm
  obtain ⟨spec, hspec, rfl⟩ := Option.map_eq_some_iff.mp stage
  unfold Engine.stepRecords
  rw [found]
  dsimp only
  by_cases scan : m.isScan = true
  · obtain ⟨relation, plan⟩ := isScan_eq_true_iff.mp scan
    have same := state.relations m hm relation plan
    rw [plan] at hspec ⊢
    cases hspec
    simp only [Plan.direct, mapError_eq_ok_iff, same]
  · rw [Bool.not_eq_true] at scan
    obtain ⟨made, direct, stored⟩ := state.outputs m hm ready scan
    rw [← state.settings_eq] at stored
    have other : ∀ relation, spec ≠ .scan relation := by
      rintro relation rfl
      cases plan : m.plan <;> rw [plan] at hspec <;> simp [Plan.spec?] at hspec
      simp [PlanNode.isScan, plan, Plan.kind] at scan
    split
    · rename_i relation
      exact absurd rfl (other relation)
    · rw [mapError_eq_ok_iff, stored, direct, Except.ok.injEq, Except.ok.injEq]

theorem inputRecords_eq_ok_iff (deployed : Deployed g nodes read settings.environment)
    (state : RunState nodes read settings done e) {ms : List PlanNode}
    (hms : ∀ m ∈ ms, m ∈ nodes ∧ m.step ∈ done) {records : List Record} :
    e.inputRecords g (ms.map (·.step)) = .ok records ↔
      Plan.directAll read (ms.map (·.plan)) = .ok records := by
  induction ms generalizing records with
  | nil => exact Iff.of_eq (by simp [Engine.inputRecords, Plan.directAll])
  | cons m rest ih =>
      obtain ⟨hm, ready⟩ := hms m (by simp)
      have first (rs : List Record) : e.stepRecords g m.step = .ok rs ↔
          m.plan.direct read = .ok rs := stepRecords_eq_ok_iff deployed state hm ready
      have others (rs : List Record) : e.inputRecords g (rest.map (·.step)) = .ok rs ↔
          Plan.directAll read (rest.map (·.plan)) = .ok rs := ih fun x hx => hms x (by simp [hx])
      rw [List.map_cons, List.map_cons, Plan.directAll_eq_ok_iff, Engine.inputRecords]
      cases found : e.stepRecords g m.step with
      | error fault =>
          simp only [reduceCtorEq, false_iff, not_exists, not_and]
          intro rs _ direct
          rw [(first rs).mpr direct] at found
          cases found
      | ok rs =>
          rw [first] at found
          simp only [map_eq_ok_iff, found, Except.ok.injEq, exists_and_left, others,
            exists_eq_left']

/-- A scan is done without any change. -/
theorem RunState.scan (deployed : Deployed g nodes read settings.environment)
    (state : RunState nodes read settings done e) {n : PlanNode} (hn : n ∈ nodes)
    (scan : n.isScan = true) : RunState nodes read settings (done ++ [n.step]) e := by
  refine { state with outputs := fun m hm ready other => ?_ }
  rcases List.mem_append.mp ready with ready | ready
  · exact state.outputs m hm ready other
  · have equal := deployed.step_inj m hm n hn (List.mem_singleton.mp ready)
    rw [equal, scan] at other
    cases other

/-- Storing the output of a node does it. -/
theorem RunState.store (deployed : Deployed g nodes read settings.environment)
    (state : RunState nodes read settings done e) {n : PlanNode} (hn : n ∈ nodes)
    (other : n.isScan = false) {made : List Record} (direct : n.plan.direct read = .ok made) :
    ∃ storage, e.storage.writeOutput settings.environment n.step made =
        (.ok (outputPath settings.environment n.step), storage) ∧
      RunState nodes read settings (done ++ [n.step]) { e with storage } := by
  obtain ⟨objects, stored⟩ := state.memory
  obtain ⟨objects', written, frame, back⟩ :=
    Storage.exists_writeOutput objects settings.environment n.step made
  have storable := deployed.storable n hn other made direct
  rw [stored]
  refine ⟨.memory objects', written, ⟨state.settings_eq, state.idle, ⟨objects', rfl⟩, ?_, ?_⟩⟩
  · intro m hm relation plan
    rw [← state.relations m hm relation plan, stored]
    exact Storage.readRelation_congr (frame _ (deployed.apart n hn other m hm relation plan))
  · intro m hm ready notScan
    by_cases same : m.step = n.step
    · rw [deployed.step_inj m hm n hn same]
      exact ⟨made, direct, back (fun r hr => (storable r hr).1) fun r hr => (storable r hr).2⟩
    · have before : m.step ∈ done := by simpa [same] using ready
      obtain ⟨records, equal, kept⟩ := state.outputs m hm before notScan
      refine ⟨records, equal, ?_⟩
      rw [← kept, stored]
      apply Storage.readOutput_congr
      intro key inside
      apply frame
      rw [← Bool.not_eq_true]
      exact fun below => same (step_eq_of_isAtOrBelow inside below)

/-- An attempt at the stage of a node either does it, or fails and changes nothing, and then
direct execution fails at the node. -/
def Settles (nodes : List PlanNode) (read : String → Except StorageFault (List Record))
    (settings : Settings) (done : List StepId) (e : Engine) (n : PlanNode) (kind : OperatorKind)
    (result : Except RunFault (Nat × Nat) × Engine) : Prop :=
  (∃ taken made e', result = (.ok (taken, made), e') ∧
      n.report read = ⟨n.step, kind, taken, made, 1⟩ ∧
      RunState nodes read settings (done ++ [n.step]) e') ∨
    ∃ fault, result = (.error fault, e) ∧ ∀ records, n.plan.direct read ≠ .ok records

theorem settles_scan (deployed : Deployed g nodes read settings.environment)
    (state : RunState nodes read settings done e) {n : PlanNode} (hn : n ∈ nodes)
    {relation : String} (plan : n.plan = .scan relation) {s : Stage} (stage : n.stage? = some s) :
    Settles nodes read settings done e n s.spec.kind (e.doWork g s) := by
  have same := state.relations n hn relation plan
  have scan := isScan_eq_true_iff.mpr ⟨relation, plan⟩
  obtain ⟨spec, hspec, rfl⟩ := Option.map_eq_some_iff.mp stage
  rw [plan] at hspec
  cases hspec
  by_cases there : e.storage.contains (relationPath relation) = true
  · left
    refine ⟨0, 0, e, ?_, ?_, state.scan deployed hn scan⟩
    · simp [Engine.doWork, StageSpec.work, Engine.checkScan, Engine.checkRelation, there,
        Except.map]
    · simp [PlanNode.report, plan, StageSpec.kind]
  · right
    refine ⟨.storage (.relationMissing (relationPath relation)), ?_, fun records direct => there ?_⟩
    · simp [Engine.doWork, StageSpec.work, Engine.checkScan, Engine.checkRelation, there,
        Except.map]
    · rw [plan, Plan.direct, mapError_eq_ok_iff, ← same] at direct
      obtain ⟨objects, stored⟩ := state.memory
      rw [stored] at direct ⊢
      exact Storage.contains_of_readRelation direct

/-- Only scans offer a relation. -/
theorem exists_work_of_not_scan {p : Plan} {spec : StageSpec} (hspec : p.spec? = some spec)
    (kind : p.kind ≠ .scan) :
    (∃ fault, spec.work = .error fault) ∨ ∃ op, spec.work = .ok (.apply op) := by
  cases p with
  | scan relation => exact absurd rfl kind
  | cross left right => cases hspec
  | select c input | project attributes input | rename newLabel input =>
      cases hspec
      exact .inr ⟨_, rfl⟩
  | join left c right =>
      cases hspec
      simp only [StageSpec.work]
      cases KeyJoin.ofCondition c left.label right.label with
      | error fault => exact .inl ⟨fault, rfl⟩
      | ok j => exact .inr ⟨.join j, rfl⟩

theorem report_of_direct {n : PlanNode} {spec : StageSpec} (hspec : n.plan.spec? = some spec)
    (kind : n.plan.kind ≠ .scan) {taken made : List Record}
    (input : Plan.directAll read n.plan.inputs = .ok taken)
    (direct : n.plan.direct read = .ok made) :
    n.report read = ⟨n.step, spec.kind, taken.length, made.length, 1⟩ := by
  have operator : spec.kind = n.plan.kind := by
    cases plan : n.plan <;> rw [plan] at hspec <;> cases hspec <;> rfl
  unfold PlanNode.report
  split
  · rename_i plan
    exact absurd (by rw [plan]; rfl) kind
  · rw [input, direct, operator]
    rfl

theorem settles_operator (deployed : Deployed g nodes read settings.environment)
    (state : RunState nodes read settings done e) {n : PlanNode} (hn : n ∈ nodes)
    (scan : n.isScan = false) (ready : ∀ m ∈ n.children, m.step ∈ done) {s : Stage}
    (stage : n.stage? = some s) :
    Settles nodes read settings done e n s.spec.kind (e.doWork g s) := by
  obtain ⟨spec, hspec, rfl⟩ := Option.map_eq_some_iff.mp stage
  have kind : n.plan.kind ≠ .scan := by simpa [PlanNode.isScan] using scan
  have whole := Plan.direct_eq hspec kind read
  have inputs (taken : List Record) :
      e.inputRecords g (n.children.map (·.step)) = .ok taken ↔
        Plan.directAll read n.plan.inputs = .ok taken := by
    rw [← map_plan_children]
    exact inputRecords_eq_ok_iff deployed state
      fun m hm => ⟨deployed.children n hn m hm, ready m hm⟩
  obtain ⟨fault, work⟩ | ⟨op, work⟩ := exists_work_of_not_scan hspec kind
  · right
    refine ⟨.operator spec fault, by simp [Engine.doWork, work], fun records direct => ?_⟩
    rw [whole, bind_eq_ok_iff] at direct
    obtain ⟨taken, -, made⟩ := direct
    simp [StageSpec.operate, work] at made
  · cases took : e.inputRecords g (n.children.map (·.step)) with
    | error fault =>
        right
        refine ⟨fault, by simp [Engine.doWork, work, Engine.applyOperator, took],
          fun records direct => ?_⟩
        rw [whole, bind_eq_ok_iff] at direct
        obtain ⟨taken, equal, -⟩ := direct
        rw [(inputs taken).mpr equal] at took
        cases took
    | ok taken =>
        have input := (inputs taken).mp took
        have operate : n.plan.direct read = (op.run taken).mapError .operator := by
          rw [whole, input]
          simp [Except.bind, StageSpec.operate, work]
        cases ran : op.run taken with
        | error fault =>
            right
            refine ⟨.stage n.step fault,
              by simp [Engine.doWork, work, Engine.applyOperator, took, ran],
              fun records direct => ?_⟩
            rw [operate, ran] at direct
            cases direct
        | ok made =>
            left
            rw [ran] at operate
            obtain ⟨storage, written, after⟩ := state.store deployed hn scan operate
            rw [← state.settings_eq] at written
            refine ⟨taken.length, made.length, { e with storage }, ?_, ?_, after⟩
            · simp [Engine.doWork, work, Engine.applyOperator, took, ran, written]
            · exact report_of_direct hspec kind input operate

theorem settles_attempt (deployed : Deployed g nodes read settings.environment)
    (state : RunState nodes read settings done e) {n : PlanNode} (hn : n ∈ nodes)
    (ready : ∀ m ∈ n.children, m.step ∈ done) {s : Stage} (stage : n.stage? = some s) :
    Settles nodes read settings done e n s.spec.kind (e.attempt g s) := by
  rw [Engine.attempt, state.idle.hit]
  by_cases scan : n.isScan = true
  · obtain ⟨relation, plan⟩ := isScan_eq_true_iff.mp scan
    exact settles_scan deployed state hn plan stage
  · exact settles_operator deployed state hn (by simpa using scan) ready stage

/-- Direct execution fails at one of the nodes. -/
def FailsSomewhere (nodes : List PlanNode)
    (read : String → Except StorageFault (List Record)) : Prop :=
  ∃ n ∈ nodes, ∀ records, n.plan.direct read ≠ .ok records

/-- A failure that changes nothing is repeated by every retry. -/
theorem runStage_of_attempt_error {s : Stage} {fault : RunFault}
    (h : e.attempt g s = (.error fault, e)) (tried retries : Nat) :
    e.runStage g s tried retries = (.error fault, e) := by
  induction retries generalizing tried with
  | zero => simp [Engine.runStage, h]
  | succ retries ih => simp [Engine.runStage, h, ih]

theorem runStage_cases (deployed : Deployed g nodes read settings.environment)
    (state : RunState nodes read settings done e) {n : PlanNode} (hn : n ∈ nodes)
    (ready : ∀ m ∈ n.children, m.step ∈ done) {s : Stage} (stage : n.stage? = some s)
    (retries : Nat) :
    (∃ e', e.runStage g s 0 retries = (.ok (n.report read), e') ∧
        RunState nodes read settings (done ++ [n.step]) e') ∨
      (∃ fault e', e.runStage g s 0 retries = (.error fault, e')) ∧ FailsSomewhere nodes read := by
  have step : s.step = n.step := by
    obtain ⟨spec, -, rfl⟩ := Option.map_eq_some_iff.mp stage
    rfl
  obtain ⟨taken, made, e', attempt, report, after⟩ | ⟨fault, attempt, fails⟩ :=
    settles_attempt deployed state hn ready stage
  · left
    refine ⟨e', ?_, after⟩
    rw [report, ← step]
    cases retries <;> simp [Engine.runStage, attempt]
  · right
    exact ⟨⟨fault, e, runStage_of_attempt_error attempt 0 retries⟩, n, hn, fails⟩

/-- A wave whose inputs are done is done, or fails where direct execution does. -/
theorem runWave_cases (deployed : Deployed g nodes read settings.environment)
    {wave : List PlanNode} {stages : List Stage}
    (hstages : List.Forall₂ (fun n s => n.stage? = some s) wave stages)
    (hwave : ∀ n ∈ wave, n ∈ nodes ∧ ∀ m ∈ n.children, m.step ∈ done)
    (state : RunState nodes read settings done e) :
    (∃ e', Scheduler.runWave (fun e stage => Engine.runStage e g stage 0 e.settings.stageRetries) e
          stages = (.ok (wave.map (PlanNode.report read)), e') ∧
        RunState nodes read settings (done ++ wave.map (·.step)) e') ∨
      (∃ fault e', Scheduler.runWave
          (fun e stage => Engine.runStage e g stage 0 e.settings.stageRetries) e stages =
            (.error fault, e')) ∧ FailsSomewhere nodes read := by
  induction hstages generalizing e done with
  | nil => exact .inl ⟨e, rfl, by simpa using state⟩
  | @cons n s wave stages stage _ ih =>
      obtain ⟨hn, ready⟩ := hwave n (by simp)
      obtain ⟨e', ran, after⟩ | ⟨⟨fault, e', ran⟩, fails⟩ :=
        runStage_cases deployed state hn ready stage e.settings.stageRetries
      · have others : ∀ m ∈ wave, m ∈ nodes ∧ ∀ c ∈ m.children, c.step ∈ done ++ [n.step] :=
          fun m hm => ⟨(hwave m (by simp [hm])).1,
            fun c hc => List.mem_append_left _ ((hwave m (by simp [hm])).2 c hc)⟩
        obtain ⟨e'', rest, final⟩ | ⟨⟨fault, e'', rest⟩, fails⟩ := ih others after
        · left
          refine ⟨e'', ?_, by simpa using final⟩
          simp [Scheduler.runWave, ran, rest, Except.map]
        · right
          exact ⟨⟨fault, e'', by simp [Scheduler.runWave, ran, rest, Except.map]⟩, fails⟩
      · right
        exact ⟨⟨fault, e', by simp [Scheduler.runWave, ran]⟩, fails⟩

theorem exists_stagesOf (deployed : Deployed g nodes read settings.environment)
    {wave : List PlanNode} (hwave : ∀ n ∈ wave, n ∈ nodes) :
    ∃ stages, Engine.stagesOf g (wave.map (·.step)) = .ok stages ∧
      List.Forall₂ (fun n s => n.stage? = some s) wave stages := by
  induction wave with
  | nil => exact ⟨[], rfl, .nil⟩
  | cons n rest ih =>
      obtain ⟨s, stage, found⟩ := deployed.stage n (hwave n (by simp))
      obtain ⟨stages, others, all⟩ := ih fun m hm => hwave m (by simp [hm])
      refine ⟨s :: stages, ?_, .cons stage all⟩
      simp [Engine.stagesOf, found, others, Except.map]

/-- Waves with barriers between them are done, or fail where direct execution does. -/
theorem runWaves_cases (deployed : Deployed g nodes read settings.environment)
    {waves : List (List PlanNode)} (hwaves : ∀ wave ∈ waves, ∀ n ∈ wave, n ∈ nodes)
    (barrier : StageGraph.Barrier g.stages done (waves.map fun wave => wave.map (·.step)))
    (state : RunState nodes read settings done e) :
    (∃ e', e.runWaves g (waves.map fun wave => wave.map (·.step)) =
          (.ok (waves.flatten.map (PlanNode.report read)), e') ∧
        RunState nodes read settings (done ++ waves.flatten.map (·.step)) e') ∨
      (∃ fault e', e.runWaves g (waves.map fun wave => wave.map (·.step)) = (.error fault, e')) ∧
        FailsSomewhere nodes read := by
  induction waves generalizing e done with
  | nil => exact .inl ⟨e, rfl, by simpa using state⟩
  | cons wave rest ih =>
      have inside := hwaves wave (by simp)
      obtain ⟨stages, found, all⟩ := exists_stagesOf deployed inside
      obtain ⟨inputs, later⟩ := barrier
      have ready : ∀ n ∈ wave, n ∈ nodes ∧ ∀ m ∈ n.children, m.step ∈ done := by
        refine fun n hn => ⟨inside n hn, fun m hm => ?_⟩
        obtain ⟨s, stage, known⟩ := deployed.stage n (inside n hn)
        obtain ⟨member, step⟩ := mem_of_stageAt? known
        obtain ⟨spec, -, rfl⟩ := Option.map_eq_some_iff.mp stage
        exact inputs _ member (List.mem_map.mpr ⟨n, hn, rfl⟩) _ (List.mem_map.mpr ⟨m, hm, rfl⟩)
      obtain ⟨e', ran, after⟩ | ⟨⟨fault, e', ran⟩, fails⟩ :=
        runWave_cases deployed all ready state
      · obtain ⟨e'', others, final⟩ | ⟨⟨fault, e'', others⟩, fails⟩ :=
          ih (fun w hw => hwaves w (by simp [hw])) later after
        · left
          refine ⟨e'', ?_, by simpa using final⟩
          simp [Engine.runWaves, found, ran, others, Except.map]
        · right
          exact ⟨⟨fault, e'', by simp [Engine.runWaves, found, ran, others, Except.map]⟩, fails⟩
      · right
        exact ⟨⟨fault, e', by simp [Engine.runWaves, found, ran]⟩, fails⟩

/-- Steps of nodes are the steps of a list of nodes. -/
theorem exists_nodes_of_steps {steps : List StepId}
    (h : ∀ step ∈ steps, step ∈ nodes.map (·.step)) :
    ∃ ns : List PlanNode, ns.map (·.step) = steps ∧ ∀ n ∈ ns, n ∈ nodes := by
  induction steps with
  | nil => exact ⟨[], rfl, by simp⟩
  | cons step rest ih =>
      obtain ⟨ns, equal, inside⟩ := ih fun s hs => h s (by simp [hs])
      obtain ⟨n, hn, same⟩ := List.mem_map.mp (h step (by simp))
      refine ⟨n :: ns, by simp [equal, same], fun m hm => ?_⟩
      rcases List.mem_cons.mp hm with rfl | hm
      · exact hn
      · exact inside m hm

theorem exists_nodes_of_waves {waves : List (List StepId)}
    (h : ∀ wave ∈ waves, ∀ step ∈ wave, step ∈ nodes.map (·.step)) :
    ∃ ws : List (List PlanNode), (ws.map fun w => w.map (·.step)) = waves ∧
      ∀ w ∈ ws, ∀ n ∈ w, n ∈ nodes := by
  induction waves with
  | nil => exact ⟨[], rfl, by simp⟩
  | cons wave rest ih =>
      obtain ⟨ws, equal, inside⟩ := ih fun w hw => h w (by simp [hw])
      obtain ⟨w, same, members⟩ := exists_nodes_of_steps (h wave (by simp))
      refine ⟨w :: ws, by simp [equal, same], fun v hv => ?_⟩
      rcases List.mem_cons.mp hv with rfl | hv
      · exact members
      · exact inside v hv

/-- Nodes with the numbers of all nodes are all nodes. -/
theorem perm_of_map_step_perm {ns : List PlanNode} (distinct : (nodes.map (·.step)).Nodup)
    (inside : ∀ n ∈ ns, n ∈ nodes) (h : (ns.map (·.step)).Perm (nodes.map (·.step))) :
    ns.Perm nodes := by
  have nodup : ns.Nodup := List.Nodup.of_map _ (h.nodup_iff.mpr distinct)
  have length : nodes.length = ns.length := by simpa using h.length_eq.symm
  exact (List.subperm_of_subset nodup inside).perm_of_length_le length.le

/-- The waves of a compiled plan are waves of its nodes, each of them in one. -/
theorem exists_nodeWaves {p : Plan} {start : StepId} (h : p.compileFrom start = .ok g) :
    ∃ ws : List (List PlanNode), (ws.map fun w => w.map (·.step)) = g.waves ∧
      (∀ w ∈ ws, ∀ n ∈ w, n ∈ p.numbered start) ∧ ws.flatten.Perm (p.numbered start) := by
  have steps := map_step_numbered_perm h
  obtain ⟨ws, equal, inside⟩ : ∃ ws : List (List PlanNode),
      (ws.map fun w => w.map (·.step)) = g.waves ∧ ∀ w ∈ ws, ∀ n ∈ w, n ∈ p.numbered start := by
    apply exists_nodes_of_waves
    intro wave hw step hs
    rw [steps.mem_iff, ← g.flatten_waves_perm.mem_iff]
    exact List.mem_flatten.mpr ⟨wave, hw, hs⟩
  refine ⟨ws, equal, inside, perm_of_map_step_perm (nodup_map_step_numbered h) ?_ ?_⟩
  · intro n hn
    obtain ⟨w, hw, hn⟩ := List.mem_flatten.mp hn
    exact inside w hw n hn
  · rw [List.map_flatten, equal]
    exact g.flatten_waves_perm.trans steps.symm

end Runs

/-- The relations that a graph reads. -/
def StageGraph.relations (g : StageGraph) : List String :=
  g.stages.filterMap fun s =>
    match s.spec with
    | .scan relation => some relation
    | _ => none

/-- No relation of a graph is stored at or below the output of a stage. -/
def StageGraph.KeepsRelations (g : StageGraph) (environment : Environment) : Prop :=
  ∀ s ∈ g.stages, Engine.storesOutput s = true → ∀ relation ∈ g.relations,
    isAtOrBelow (outputPath environment s.step) (relationPath relation) = false

instance (g : StageGraph) (environment : Environment) :
    Decidable (g.KeepsRelations environment) :=
  inferInstanceAs (Decidable (∀ _ ∈ _, _ → ∀ _ ∈ _, _))

theorem mem_relations_of_mem_numbered {p : Plan} {start : StepId} {g : StageGraph}
    (compiled : p.compileFrom start = .ok g) {n : PlanNode} (hn : n ∈ p.numbered start)
    {relation : String} (plan : n.plan = .scan relation) : relation ∈ g.relations := by
  obtain ⟨s, hs, stage, -⟩ := exists_stage_of_mem_numbered compiled hn
  refine List.mem_filterMap.mpr ⟨s, hs, ?_⟩
  obtain ⟨spec, hspec, rfl⟩ := Option.map_eq_some_iff.mp stage
  rw [plan] at hspec
  cases hspec
  rfl

theorem deployed_of_compileFrom {p : Plan} {start : StepId} {g : StageGraph}
    (compiled : p.compileFrom start = .ok g) {objects : Table ByteArray}
    {environment : Environment} (fits : p.Everywhere Plan.AliasFitsAt)
    (apart : g.KeepsRelations environment)
    (back : ∀ n ∈ p.numbered start, n.isScan = false → ∀ records,
      n.plan.direct (Storage.memory objects).readRelation = .ok records →
        ∀ r ∈ records, r.ReadsBack) :
    Deployed g (p.numbered start) (Storage.memory objects).readRelation environment where
  stage n hn := by
    obtain ⟨s, -, stage, found⟩ := exists_stage_of_mem_numbered compiled hn
    exact ⟨s, stage, found⟩
  step_inj n hn m hm equal :=
    List.inj_on_of_nodup_map (nodup_map_step_numbered compiled) hn hm equal
  children n hn m hm := Plan.children_mem_numbered hn hm
  storable n hn other records direct r hr := by
    have labels := Plan.fitsLine_direct (fun _ _ => Storage.fitsLine_of_readRelation)
      (fits.of_mem_numbered hn) direct
    exact ⟨labels r hr, back n hn other records direct r hr⟩
  apart n hn other m hm relation plan := by
    obtain ⟨s, hs, stage, -⟩ := exists_stage_of_mem_numbered compiled hn
    rw [← step_of_stage? stage]
    refine apart s hs ?_ relation (mem_relations_of_mem_numbered compiled hm plan)
    obtain ⟨spec, hspec, rfl⟩ := Option.map_eq_some_iff.mp stage
    have kind : n.plan.kind ≠ .scan := by simpa [PlanNode.isScan] using other
    cases plan : n.plan <;> rw [plan] at hspec kind <;> cases hspec <;>
      simp_all [Engine.storesOutput, StageSpec.kind, Plan.kind]

/-- Running the graph of a plan in memory succeeds exactly if direct execution of the plan does,
and then gives the same records and one report for every node. -/
theorem Engine.run_eq_direct {p : Plan} {start : StepId} {g : StageGraph}
    (compiled : p.compileFrom start = .ok g) (fits : p.Everywhere Plan.AliasFitsAt)
    {e : Engine} {objects : Table ByteArray} (memory : e.storage = .memory objects)
    (idle : e.failPoints.Idle) (apart : g.KeepsRelations e.settings.environment)
    (back : ∀ n ∈ p.numbered start, n.isScan = false → ∀ records,
      n.plan.direct e.storage.readRelation = .ok records → ∀ r ∈ records, r.ReadsBack) :
    ((∃ out, (e.run g).1 = .ok out) ↔ ∃ records, p.direct e.storage.readRelation = .ok records) ∧
      ∀ out, (e.run g).1 = .ok out →
        p.direct e.storage.readRelation = .ok out.records ∧
          out.reports.Perm ((p.numbered start).map (PlanNode.report e.storage.readRelation)) ∧
          out.reports.length = p.size := by
  rw [memory] at back ⊢
  have deployed := deployed_of_compileFrom compiled fits apart back
  obtain ⟨valid, root, -⟩ := compileFrom_eq_ok compiled
  obtain ⟨waves, equal, inside, all⟩ := exists_nodeWaves compiled
  have begin : RunState (p.numbered start) (Storage.memory objects).readRelation e.settings [] e :=
    ⟨rfl, idle, ⟨objects, memory⟩, fun _ _ _ _ => by rw [memory], by simp⟩
  have barrier := valid.barrier
  rw [← equal] at barrier
  rw [Engine.fst_run, Engine.runStages_eq, ← equal]
  obtain ⟨e', ran, after⟩ | ⟨⟨fault, e', ran⟩, n, hn, fails⟩ :=
    runWaves_cases deployed inside barrier begin
  · rw [ran]
    have done : start ∈ [] ++ waves.flatten.map (·.step) := by
      rw [List.nil_append, (all.map _).mem_iff]
      exact List.mem_map.mpr ⟨⟨start, p⟩, p.self_mem_numbered start, rfl⟩
    have result (records : List Record) : e'.stepRecords g g.root = .ok records ↔
        p.direct (Storage.memory objects).readRelation = .ok records := by
      rw [root]
      exact stepRecords_eq_ok_iff deployed after (p.self_mem_numbered start) done
    simp only [map_eq_ok_iff]
    constructor
    · constructor
      · rintro ⟨out, records, found, -⟩
        exact ⟨records, (result records).mp found⟩
      · rintro ⟨records, direct⟩
        exact ⟨_, records, (result records).mpr direct, rfl⟩
    · rintro out ⟨records, found, rfl⟩
      refine ⟨(result records).mp found, all.map _, ?_⟩
      rw [List.length_map, all.length_eq, p.length_numbered start]
  · rw [ran]
    have fails' : ¬ ∃ records, p.direct (Storage.memory objects).readRelation = .ok records := by
      rintro ⟨records, direct⟩
      obtain ⟨made, equal⟩ := Plan.exists_direct_of_mem_numbered direct hn
      exact fails made equal
    constructor
    · constructor
      · rintro ⟨out, h⟩
        cases h
      · intro h
        exact absurd h fails'
    · intro out h
      cases h

/-- Two persons. -/
def personRecords : List Record :=
  [⟨"Person", Table.ofList [("Person.name", .text "Amy"), ("Person.age", .int 16)]⟩,
    ⟨"Person", Table.ofList [("Person.name", .text "Ben"), ("Person.age", .int 21)]⟩]

/-- What one of them eats. -/
def eatsRecords : List Record :=
  [⟨"Eats", Table.ofList [("Eats.name", .text "Amy"), ("Eats.pizza", .text "cheese")]⟩,
    ⟨"Eats", Table.ofList [("Eats.name", .text "Amy"), ("Eats.pizza", .text "ham")]⟩]

/-- The relations, and what other runs have left where the outputs are stored. -/
def leftoverObjects : Table ByteArray :=
  (((Table.empty.insert "Eats.json" (encodeRecords eatsRecords)).insert
    "Person.json" (encodeRecords personRecords)).insert
      "tmp1/part-00007" (encodeRecords personRecords)).insert "tmp2" (encodeRecords [])

/-- A distributed engine over what is left. -/
def leftoverEngine : Engine where
  settings := { environment := .distributed }
  storage := .memory leftoverObjects

/-- What persons eat. -/
def pizzaPlan : Plan :=
  .project [.bare "pizza"] (.join (.rename "E" (.scan "Eats"))
    (.equal (.attr (.qualified "E" "name")) (.attr (.qualified "Person" "name"))) (.scan "Person"))

/-- The stages of the plan. -/
def pizzaGraph : StageGraph :=
  ⟨⟨1⟩, [⟨⟨1⟩, .project [.bare "pizza"], "E,Person", [⟨2⟩]⟩,
    ⟨⟨2⟩, .join (.equal (.attr (.qualified "E" "name")) (.attr (.qualified "Person" "name"))) "E"
      "Person", "E,Person", [⟨3⟩, ⟨5⟩]⟩,
    ⟨⟨3⟩, .rename "E", "E", [⟨4⟩]⟩, ⟨⟨4⟩, .scan "Eats", "Eats", []⟩,
    ⟨⟨5⟩, .scan "Person", "Person", []⟩]⟩

theorem compileFrom_pizzaPlan : pizzaPlan.compileFrom StepId.root = .ok pizzaGraph := by
  apply compileFrom_of_lower rfl rfl
  exact StageGraph.ofStages_of_faultless (by decide) (by decide) (by decide)

/-- The relations without their files. -/
def pizzaRelations (relation : String) : Except StorageFault (List Record) :=
  if relation = "Eats" then .ok eatsRecords else .ok personRecords

theorem pizzaPlan_readAlike :
    pizzaPlan.Everywhere (Plan.ReadAlikeAt leftoverEngine.storage.readRelation pizzaRelations) := by
  refine ⟨trivial, trivial, ⟨trivial, ?_⟩, ?_⟩
  · exact Storage.readRelation_of_get?
      (by simp [leftoverObjects, Table.get?_insert, relationPath]) (by decide)
      (readsBack_of_no_float (by decide))
  · exact Storage.readRelation_of_get?
      (by simp [leftoverObjects, Table.get?_insert, relationPath]) (by decide)
      (readsBack_of_no_float (by decide))

theorem pizzaPlan_no_float :
    ∀ n ∈ pizzaPlan.numbered StepId.root, ∀ r ∈ (n.plan.direct pizzaRelations).toOption.getD [],
      ∀ e ∈ r.tuple.entries, (e.2 matches .float _) = false := by
  decide +kernel

/-- The leftovers do not show in the result. -/
theorem Engine.run_eq_direct_leftovers : ∃ out,
    (leftoverEngine.run pizzaGraph).1 = .ok out ∧ out.reports.length = 5 ∧
      out.records = [⟨"E,Person", Table.ofList [("E.pizza", .text "cheese")]⟩,
        ⟨"E,Person", Table.ofList [("E.pizza", .text "ham")]⟩] := by
  have alike (n : PlanNode) (hn : n ∈ pizzaPlan.numbered StepId.root) :
      n.plan.direct leftoverEngine.storage.readRelation = n.plan.direct pizzaRelations :=
    Plan.direct_congr (pizzaPlan_readAlike.of_mem_numbered hn)
  have all := alike ⟨StepId.root, pizzaPlan⟩ (Plan.self_mem_numbered _ _)
  have made : pizzaPlan.direct pizzaRelations =
      .ok [⟨"E,Person", Table.ofList [("E.pizza", .text "cheese")]⟩,
        ⟨"E,Person", Table.ofList [("E.pizza", .text "ham")]⟩] := by
    decide +kernel
  obtain ⟨succeeds, outcome⟩ := Engine.run_eq_direct compileFrom_pizzaPlan (by decide)
    (e := leftoverEngine) rfl (fun _ => rfl) (by decide +kernel) fun n hn _ records direct => by
      rw [alike n hn] at direct
      refine readsBack_of_no_float fun r hr => pizzaPlan_no_float n hn r ?_
      rw [direct]
      exact hr
  obtain ⟨out, ran⟩ := succeeds.mpr ⟨_, all.trans made⟩
  obtain ⟨records, -, reports⟩ := outcome out ran
  refine ⟨out, ran, reports, ?_⟩
  rw [all.trans made] at records
  exact (Except.ok.inj records).symm

end StagedAlgebra
