import StagedAlgebra.Engine.FailPoints
import StagedAlgebra.Engine.Scheduler
import StagedAlgebra.Manifest
import StagedAlgebra.Plan.Optimization
import StagedAlgebra.StageGraph.Compilation
import StagedAlgebra.Storage.RecordStore

/-!
# Engines

An engine runs stage graphs over a storage. It goes through the waves of a graph in order, and
through the stages of a wave in order. A stage reads the records of its inputs from the storage,
applies its operator and stores what comes out; the stage of a relation only checks that the
relation is there. A stage that fails is tried again as often as the settings say. The result of
a run are the records of the root.

When a run is over, well or not, the outputs of its stages are removed, unless the settings keep
them. A failure to remove one is passed over.
-/

namespace StagedAlgebra

/-- Why a run fails. -/
inductive RunFault where
  /-- The plan cannot be compiled. -/
  | plan (fault : CompileFault)
  /-- The settings cannot be used. -/
  | settings (fault : SettingsFault)
  /-- A stage has no operator that does what it says. -/
  | operator (spec : StageSpec) (fault : OperatorFault)
  /-- The operator of a stage cannot go on. -/
  | stage (step : StepId) (fault : OperatorFault)
  /-- Objects cannot be read or written. -/
  | storage (fault : StorageFault)
  /-- A step that is needed is no stage of the graph. -/
  | noStage (step : StepId)
  /-- A stage has no operator, but it is no scan either. -/
  | noOperator (step : StepId)
  /-- The scheduler cannot be started. -/
  | scheduler (reason : String)
  /-- A graph or its result cannot be hashed. -/
  | hash (reason : String)
deriving DecidableEq

/-- The message about a failed run. -/
def RunFault.message : RunFault → String
  | .plan fault => fault.message
  | .settings fault => fault.message
  | .operator spec fault => "operator registry: " ++ spec.text ++ ": " ++ fault.message
  | .stage step fault => "stage " ++ step.digits ++ " failed: " ++ fault.message
  | .storage fault => "storage: " ++ fault.message
  | .noStage step => "invalid plan: no stage for " ++ step.text
  | .noOperator step => "invalid plan: " ++ step.text ++ " has no operator"
  | .scheduler reason => "scheduler: " ++ reason
  | .hash reason => "hashing error: " ++ reason

/-- What a stage did. -/
structure StageReport where
  /-- Its number. -/
  step : StepId
  /-- Its operator. -/
  kind : OperatorKind
  /-- How many records it took. -/
  recordsIn : Nat
  /-- How many records it made. -/
  recordsOut : Nat
  /-- How often it was tried. -/
  attempts : Nat
deriving DecidableEq

/-- What a run brought out. -/
structure RunOutput where
  /-- The records of the root. -/
  records : List Record
  /-- What each stage did, in the order run. -/
  reports : List StageReport
deriving DecidableEq

/-- The manifest of a run of a graph. -/
def RunOutput.manifest (o : RunOutput) (g : StageGraph) (started finished : Nat) : Manifest :=
  (Manifest.start (.ofGraph g) started).finish finished o.reports.length o.records.length
    (some (.ofRecords o.records))

/-- Settings, and the storage and fail points that runs change. -/
structure Engine where
  /-- The settings. -/
  settings : Settings
  /-- The stored objects. -/
  storage : Storage
  /-- The failures that are asked for. -/
  failPoints : FailPoints := {}

/-- The fail point at the start of the stages with a label. -/
def startPoint (label : String) : String :=
  "stage_start:" ++ label

namespace Engine

/-- The engine with the storage that the settings ask for. -/
def ofSettings (s : Settings) (tree : FileTree) : Except RunFault Engine :=
  match s.fault? with
  | some fault => .error (.settings fault)
  | none =>
    match Storage.ofSettings s tree with
    | .error fault => .error (.storage fault)
    | .ok storage => .ok { settings := s, storage }

/-- The records of a step, wherever they are stored. -/
def stepRecords (e : Engine) (g : StageGraph) (step : StepId) : Except RunFault (List Record) :=
  match g.stage? step with
  | none => .error (.noStage step)
  | some stage =>
    match stage.spec with
    | .scan relation => (e.storage.readRelation relation).mapError .storage
    | _ => (e.storage.readOutput e.settings.environment step).mapError .storage

/-- The records of several steps, in order. -/
def inputRecords (e : Engine) (g : StageGraph) : List StepId → Except RunFault (List Record)
  | [] => .ok []
  | step :: rest =>
    match e.stepRecords g step with
    | .error fault => .error fault
    | .ok records => (e.inputRecords g rest).map (records ++ ·)

/-- Checks that a relation is stored. -/
def checkRelation (e : Engine) (relation : String) : Except RunFault Unit :=
  if e.storage.contains (relationPath relation) then .ok ()
  else .error (.storage (.relationMissing (relationPath relation)))

/-- Checks a stage without operator: it can only be the scan of a stored relation. -/
def checkScan (e : Engine) (stage : Stage) : Except RunFault Unit :=
  match stage.spec with
  | .scan relation => e.checkRelation relation
  | _ => .error (.noOperator stage.step)

/-- The records that a stage takes and those that its operator makes of them. -/
def applyOperator (e : Engine) (g : StageGraph) (stage : Stage) (op : Operator) :
    Except RunFault (List Record × List Record) :=
  match e.inputRecords g stage.inputs with
  | .error fault => .error fault
  | .ok taken =>
    match op.run taken with
    | .error fault => .error (.stage stage.step fault)
    | .ok made => .ok (taken, made)

/-- Does the work of a stage; gives how many records it took and made. -/
def doWork (e : Engine) (g : StageGraph) (stage : Stage) : Except RunFault (Nat × Nat) × Engine :=
  match stage.spec.work with
  | .error fault => (.error (.operator stage.spec fault), e)
  | .ok .offer => ((e.checkScan stage).map fun _ => (0, 0), e)
  | .ok (.apply op) =>
    match e.applyOperator g stage op with
    | .error fault => (.error fault, e)
    | .ok (taken, made) =>
      match e.storage.writeOutput e.settings.environment stage.step made with
      | (.error fault, storage) => (.error (.storage fault), { e with storage })
      | (.ok _, storage) => (.ok (taken.length, made.length), { e with storage })

/-- Runs a stage once, unless a failure at its start is asked for. -/
def attempt (e : Engine) (g : StageGraph) (stage : Stage) : Except RunFault (Nat × Nat) × Engine :=
  match e.failPoints.hit (startPoint stage.label) with
  | (true, failPoints) => (.error (.stage stage.step .injected), { e with failPoints })
  | (false, failPoints) => { e with failPoints }.doWork g stage

/-- Runs a stage until it succeeds or all retries are used up; `tried` counts the attempts
before. -/
def runStage (e : Engine) (g : StageGraph) (stage : Stage) (tried : Nat) :
    (retries : Nat) → Except RunFault StageReport × Engine
  | 0 =>
    match e.attempt g stage with
    | (.ok (taken, made), e) => (.ok ⟨stage.step, stage.spec.kind, taken, made, tried + 1⟩, e)
    | (.error fault, e) => (.error fault, e)
  | retries + 1 =>
    match e.attempt g stage with
    | (.ok (taken, made), e) => (.ok ⟨stage.step, stage.spec.kind, taken, made, tried + 1⟩, e)
    | (.error _, e) => e.runStage g stage (tried + 1) retries

/-- The stages of steps. -/
def stagesOf (g : StageGraph) : List StepId → Except RunFault (List Stage)
  | [] => .ok []
  | step :: rest =>
    match g.stage? step with
    | none => .error (.noStage step)
    | some stage => (stagesOf g rest).map (stage :: ·)

/-- Runs waves one after another. -/
def runWaves (e : Engine) (g : StageGraph) :
    List (List StepId) → Except RunFault (List StageReport) × Engine
  | [] => (.ok [], e)
  | wave :: rest =>
    match stagesOf g wave with
    | .error fault => (.error fault, e)
    | .ok stages =>
      match Scheduler.runWave (fun e stage => runStage e g stage 0 e.settings.stageRetries) e
          stages with
      | (.error fault, e) => (.error fault, e)
      | (.ok reports, e) =>
        let (outcome, e) := e.runWaves g rest
        (outcome.map (reports ++ ·), e)

/-- Whether a stage stores an output. -/
def storesOutput (stage : Stage) : Bool :=
  stage.spec.kind != .scan

/-- An engine without the outputs of the stages of a graph. -/
def cleanUp (e : Engine) (g : StageGraph) : Engine :=
  let steps := (g.stages.filter storesOutput).map (·.step)
  let remove := fun (s : Storage) step => (s.removeOutput e.settings.environment step).2
  { e with storage := steps.foldl remove e.storage }

/-- Runs the stages of a graph with a new scheduler and reads the records of the root. -/
def runStages (e : Engine) (g : StageGraph) : Except RunFault RunOutput × Engine :=
  match Scheduler.start e.settings.maxParallelTasks with
  | .error reason => (.error (.scheduler reason), e)
  | .ok _ =>
    match e.runWaves g g.waves with
    | (.error fault, e) => (.error fault, e)
    | (.ok reports, e) => ((e.stepRecords g g.root).map fun records => ⟨records, reports⟩, e)

/-- The scheduler starts under every limit. -/
theorem runStages_eq (e : Engine) (g : StageGraph) :
    e.runStages g =
      match e.runWaves g g.waves with
      | (.error fault, e) => (.error fault, e)
      | (.ok reports, e) => ((e.stepRecords g g.root).map fun records => ⟨records, reports⟩, e) :=
  rfl

/-- Runs a graph. The digests of its manifest are taken of the graph before the run and of the
records after it, when the outputs have been removed already. -/
def run (e : Engine) (g : StageGraph) : Except RunFault RunOutput × Engine :=
  match Digest.hashGraph g with
  | .error reason => (.error (.hash reason), e)
  | .ok _ =>
    let (outcome, e) := e.runStages g
    let hashed := fun (out : RunOutput) =>
      match Digest.hashRecords out.records with
      | .error reason => .error (.hash reason)
      | .ok _ => .ok out
    (outcome.bind hashed, if e.settings.keepIntermediates then e else e.cleanUp g)

/-- Every result can be hashed, so a run brings out what its stages do. -/
theorem run_eq (e : Engine) (g : StageGraph) :
    e.run g = ((e.runStages g).1, if (e.runStages g).2.settings.keepIntermediates then
      (e.runStages g).2 else (e.runStages g).2.cleanUp g) := by
  simp only [run, Digest.hashGraph_eq, Digest.hashRecords_eq]
  cases (e.runStages g).1 <;> rfl

theorem fst_run (e : Engine) (g : StageGraph) : (e.run g).1 = (e.runStages g).1 := by
  rw [run_eq]

/-- The graph of a plan after optimization. -/
def graphOf (p : Plan) (d : Dictionary) : Except RunFault StageGraph :=
  (p.optimize d).compile.mapError .plan

/-- Optimizes, compiles and runs a plan. -/
def runPlan (e : Engine) (p : Plan) (d : Dictionary) : Except RunFault RunOutput × Engine :=
  match graphOf p d with
  | .error fault => (.error fault, e)
  | .ok g => e.run g

end Engine

end StagedAlgebra
