import StagedAlgebra.Json.Reader
import StagedAlgebra.Stage

/-!
# Stage graphs

A stage graph is a set of stages with distinct numbers, one of which is the root. Every stage
takes its records from stages with larger numbers, so there are no cycles.

`ofStages` is the only way to make one. It puts the stages into ascending order and finds the
first fault, if there is any: repeated numbers first, then a missing root, then stage by stage an
unknown input before one that is not numbered after the stage.

*Waves* are the layers in which a graph can run: a stage is in the first wave after those of all
its inputs.
-/

namespace StagedAlgebra

/-- Why stages do not make a graph. -/
inductive GraphFault where
  /-- Two stages have one number. -/
  | repeatedStep
  /-- The root is no stage. -/
  | missingRoot (root : StepId)
  /-- An input is no stage. -/
  | unknownInput (step input : StepId)
  /-- An input is not numbered after the stage that takes its records. -/
  | earlyInput (step input : StepId)
  /-- A text does not write a graph. -/
  | unreadable
deriving DecidableEq

/-- The message about stages that do not make a graph. -/
def GraphFault.message : GraphFault → String
  | .repeatedStep => "Internal invariant failed: duplicate step id in stage graph"
  | .missingRoot root => "Internal invariant failed: root " ++ root.text ++ " has no stage"
  | .unknownInput step input =>
    "Internal invariant failed: " ++ step.text ++ " depends on unknown " ++ input.text
  | .earlyInput step input =>
    "Internal invariant failed: " ++ step.text ++ " depends on " ++ input.text
      ++ ", which is not numbered after it"
  | .unreadable => "Record codec error: " ++ unreadableJson

/-- A root and stages in ascending order of their numbers. -/
structure StageGraph where
  /-- The step whose records are the result. -/
  root : StepId
  /-- The stages. -/
  stages : List Stage
deriving DecidableEq

/-- The stage with a number. -/
def stageAt? (stages : List Stage) (step : StepId) : Option Stage :=
  stages.find? fun s => s.step == step

/-- The stage with a number among stages in ascending order, looked for in ever smaller halves. -/
def bisect? (stages : List Stage) (step : StepId) : Option Stage :=
  if nonempty : stages.length ≠ 0 then
    let half := stages.length / 2
    have inside : half < stages.length := by omega
    let middle := stages[half]
    if step < middle.step then bisect? (stages.take half) step
    else if middle.step < step then bisect? (stages.drop (half + 1)) step
    else some middle
  else none
termination_by stages.length
decreasing_by all_goals grind

/-- Whether two neighbours of a list of stages have one number. -/
def hasRepeatedStep : List Stage → Bool
  | a :: b :: rest => a.step == b.step || hasRepeatedStep (b :: rest)
  | _ => false

/-- The first fault in the inputs of a stage. -/
def inputFault? (stages : List Stage) (s : Stage) : Option GraphFault :=
  match s.inputs.find? fun i => (stageAt? stages i).isNone with
  | some unknown => some (.unknownInput s.step unknown)
  | none => (s.inputs.find? fun i => decide (i ≤ s.step)).map (.earlyInput s.step)

/-- The first fault in stages in ascending order. -/
def graphFault? (root : StepId) (stages : List Stage) : Option GraphFault :=
  if hasRepeatedStep stages then some .repeatedStep
  else if (stageAt? stages root).isNone then some (.missingRoot root)
  else stages.findSome? (inputFault? stages)

namespace StageGraph

/-- The graph of a root and stages in any order. -/
def ofStages (root : StepId) (stages : List Stage) : Except GraphFault StageGraph :=
  let sorted := stages.mergeSort fun a b => decide (a.step ≤ b.step)
  match graphFault? root sorted with
  | some fault => .error fault
  | none => .ok ⟨root, sorted⟩

/-- The stage with a number. -/
def stage? (g : StageGraph) (step : StepId) : Option Stage :=
  stageAt? g.stages step

/-- The number of stages. -/
def size (g : StageGraph) : Nat :=
  g.stages.length

/-- The layer of a stage, given the layers of its inputs: the first one after theirs. -/
def layerAfter (layers : List (StepId × Nat)) (s : Stage) : Nat :=
  ((s.inputs.filterMap fun i => layers.lookup i).map (· + 1)).foldl max 0

/-- The layers of stages in ascending order, found from the last one backwards. -/
def layersOf : List Stage → List (StepId × Nat)
  | [] => []
  | s :: rest =>
    let layers := layersOf rest
    (s.step, layerAfter layers s) :: layers

/-- The steps of each layer, ascending. -/
def waves (g : StageGraph) : List (List StepId) :=
  let layers := layersOf g.stages
  let count := (layers.map (·.2 + 1)).foldl max 0
  (List.range count).map fun layer => (layers.filter (·.2 == layer)).map (·.1)

/-- The listing of a graph, one stage a line. -/
def text (g : StageGraph) : String :=
  String.join (g.stages.map Stage.line)

/-- The JSON form of a graph. -/
def toJson (g : StageGraph) : Json :=
  .object [("root", g.root.toJson), ("stages", .array (g.stages.map Stage.toJson))]

/-- The JSON text in which a graph is passed on. -/
def shipped (g : StageGraph) : String :=
  g.toJson.pretty

/-- The root and the stages that a document writes. -/
def partsOfDocument? (doc : Document) : Option (StepId × List Stage) :=
  match doc.structure? true ["root", "stages"] with
  | some [some root, some stages] =>
    match StepId.ofDocument? root, stages.listOf? Stage.ofDocument? with
    | some root, some stages => some (root, stages)
    | _, _ => none
  | _ => none

/-- The graph that a JSON text writes. -/
def parse (s : String) : Except GraphFault StageGraph :=
  match (Document.parseJson s).bind partsOfDocument? with
  | some (root, stages) => ofStages root stages
  | none => .error .unreadable

end StageGraph

end StagedAlgebra
