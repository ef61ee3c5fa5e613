import StagedAlgebra.StageGraph

/-!
# Compiling plans

A plan without cross products becomes a graph with one stage an operator. The stages of a plan are
numbered from its root on: the root first, then the left input with all that is below it, then
the right one. A cross product has no stage, and the two sides of a join must flow under
different labels, because nothing else tells their records apart.
-/

namespace StagedAlgebra

/-- Why a plan cannot be compiled. -/
inductive CompileFault where
  /-- There is a cross product. -/
  | crossProduct
  /-- The two sides of a join flow under one label. -/
  | sharedLabel (label : String)
  /-- The stages do not make a graph. -/
  | graph (fault : GraphFault)
deriving DecidableEq

/-- The message about a plan that cannot be compiled. -/
def CompileFault.message : CompileFault → String
  | .crossProduct => "Unsupported operator: cross cannot be compiled into a stage"
  | .sharedLabel label =>
    "Planning error: join inputs both flow under '" ++ label ++ "'; rename one side"
  | .graph fault => fault.message

namespace Plan

/-- The number of stages of a plan. -/
def stageCount : Plan → Except CompileFault Nat
  | .scan _ => .ok 1
  | .select _ input | .project _ input | .rename _ input => input.stageCount.map (1 + ·)
  | .join left _ right =>
    match left.stageCount with
    | .error fault => .error fault
    | .ok n => right.stageCount.map (1 + n + ·)
  | .cross .. => .error .crossProduct

/-- The stages of a plan whose root has the number `step`, inputs before the stages that take
their records. -/
def lower (step : StepId) : Plan → Except CompileFault (List Stage)
  | .scan relation => .ok [⟨step, .scan relation, relation, []⟩]
  | .select c input =>
    (input.lower (step.offset 1)).map fun stages =>
      stages ++ [⟨step, .select c, input.label, [step.offset 1]⟩]
  | .project attributes input =>
    (input.lower (step.offset 1)).map fun stages =>
      stages ++ [⟨step, .project attributes, input.label, [step.offset 1]⟩]
  | .rename newLabel input =>
    (input.lower (step.offset 1)).map fun stages =>
      stages ++ [⟨step, .rename newLabel, newLabel, [step.offset 1]⟩]
  | .join left c right =>
    if left.label = right.label then .error (.sharedLabel left.label)
    else
      match left.stageCount with
      | .error fault => .error fault
      | .ok n =>
        let leftStep := step.offset 1
        let rightStep := step.offset (1 + n)
        match left.lower leftStep with
        | .error fault => .error fault
        | .ok leftStages =>
          (right.lower rightStep).map fun rightStages =>
            leftStages ++ rightStages ++ [⟨step, .join c left.label right.label,
              pairLabel left.label right.label, [leftStep, rightStep]⟩]
  | .cross .. => .error .crossProduct

/-- The graph of a plan whose root has a given number. -/
def compileFrom (start : StepId) (p : Plan) : Except CompileFault StageGraph :=
  match p.stageCount with
  | .error fault => .error fault
  | .ok _ =>
    match p.lower start with
    | .error fault => .error fault
    | .ok stages =>
      match StageGraph.ofStages start stages with
      | .error fault => .error (.graph fault)
      | .ok g => .ok g

/-- The graph of a plan, its root numbered one. -/
def compile (p : Plan) : Except CompileFault StageGraph :=
  p.compileFrom StepId.root

end Plan

end StagedAlgebra
