import StagedAlgebra.Operator
import StagedAlgebra.Plan.Document

/-!
# Stages

A stage is one numbered step of a run: what it does, the label of the records it makes, and the
steps whose records it takes. Steps are numbered by 64-bit words; a step is numbered before those
that it takes its records from.
-/

namespace StagedAlgebra

/-- The number of a step. -/
structure StepId where
  /-- The number. -/
  number : UInt64
deriving DecidableEq

namespace StepId

instance : LT StepId := ⟨fun a b => a.number < b.number⟩

instance : LE StepId := ⟨fun a b => a.number ≤ b.number⟩

instance (a b : StepId) : Decidable (a < b) := inferInstanceAs (Decidable (a.number < b.number))

instance (a b : StepId) : Decidable (a ≤ b) := inferInstanceAs (Decidable (a.number ≤ b.number))

/-- The number of the step that a run ends with, unless another one is asked for. -/
def root : StepId := ⟨1⟩

/-- The step that comes `n` after a step. -/
def offset (s : StepId) (n : Nat) : StepId :=
  ⟨s.number + UInt64.ofNat n⟩

/-- The digits of the number of a step. -/
def digits (s : StepId) : String :=
  String.ofList (Text.natChars s.number.toNat)

/-- The text of a step in messages. -/
def text (s : StepId) : String :=
  "StepId(" ++ s.digits ++ ")"

/-- The JSON form of a step. -/
def toJson (s : StepId) : Json :=
  .int s.number.toNat

/-- The step that a document names. -/
def ofDocument? (doc : Document) : Option StepId :=
  doc.word64?.map fun n => ⟨UInt64.ofNat n⟩

end StepId

/-- What a stage does. -/
inductive StageSpec where
  /-- Offers the records of a relation. -/
  | scan (relation : String)
  /-- Keeps the records that satisfy a condition. -/
  | select (condition : Condition)
  /-- Keeps some attributes, and each tuple once. -/
  | project (attributes : List Attribute)
  /-- Changes the label. -/
  | rename (newLabel : String)
  /-- Joins the records of two labels. -/
  | join (condition : Condition) (leftLabel rightLabel : String)
deriving DecidableEq

/-- The work of a stage. -/
inductive StageWork where
  /-- There is no operator to apply, as the records are stored already. -/
  | offer
  /-- An operator is to be applied to the records of the inputs. -/
  | apply (operator : Operator)
deriving DecidableEq

namespace StageSpec

/-- The operator of a stage. -/
def kind : StageSpec → OperatorKind
  | .scan _ => .scan
  | .select _ => .select
  | .project _ => .project
  | .rename _ => .rename
  | .join .. => .join

/-- Whether the records of a shuffle key are reduced. -/
def reduces : StageSpec → Bool
  | .project _ | .join .. => true
  | _ => false

/-- The text of what a stage does. -/
def text : StageSpec → String
  | .scan relation => "scan " ++ relation
  | .select c => "select [" ++ c.text ++ "]"
  | .project attributes => "project [" ++ ", ".intercalate (attributes.map (·.text)) ++ "]"
  | .rename newLabel => "rename [" ++ newLabel ++ "]"
  | .join c leftLabel rightLabel =>
    "join [" ++ c.text ++ "] " ++ leftLabel ++ " x " ++ rightLabel

/-- The work of a stage; a join must equate attributes of its two sides. -/
def work : StageSpec → Except OperatorFault StageWork
  | .scan _ => .ok .offer
  | .select c => .ok (.apply (.select c))
  | .project attributes => .ok (.apply (.project attributes))
  | .rename newLabel => .ok (.apply (.rename newLabel))
  | .join c leftLabel rightLabel =>
    (KeyJoin.ofCondition c leftLabel rightLabel).map fun j => .apply (.join j)

/-- The JSON form of what a stage does: the name of the operator first, then its settings. -/
def toJson : StageSpec → Json
  | .scan relation => .object [("op", .string "scan"), ("relation", .string relation)]
  | .select c => .object [("op", .string "select"), ("condition", c.toJson)]
  | .project attributes =>
    .object [("op", .string "project"), ("attributes", Attribute.listToJson attributes)]
  | .rename newLabel => .object [("op", .string "rename"), ("alias", .string newLabel)]
  | .join c leftLabel rightLabel =>
    .object [("op", .string "join"), ("condition", c.toJson),
      ("left_label", .string leftLabel), ("right_label", .string rightLabel)]

/-- The stage of an operator's name with a document of its settings. -/
def ofSettings? (op : String) (settings : Document) : Option StageSpec :=
  let field := fun names => settings.structure? true names
  let condition? := fun (doc : Document) => Condition.ofDocument? .full doc.depth doc
  match op with
  | "scan" =>
    match field ["relation"] with
    | some [some relation] => relation.text?.map .scan
    | _ => none
  | "select" =>
    match field ["condition"] with
    | some [some c] => (condition? c).map .select
    | _ => none
  | "project" =>
    match field ["attributes"] with
    | some [some attributes] => (Attribute.listOfDocument? 1 attributes).map .project
    | _ => none
  | "rename" =>
    match field ["alias"] with
    | some [some newLabel] => newLabel.text?.map .rename
    | _ => none
  | "join" =>
    match field ["condition", "left_label", "right_label"] with
    | some [some c, some left, some right] =>
      match condition? c, left.text?, right.text? with
      | some c, some left, some right => some (.join c left right)
      | _, _, _ => none
    | _ => none
  | _ => none

/-- What a stage does, as a document writes it: the name of the operator among its settings, or
in front of the list of them. The name may come last, so everything has to be readable. -/
def ofDocument? (doc : Document) : Option StageSpec :=
  if !doc.isReadable then none
  else
    match doc.untagged with
    | .list (op :: settings) => op.text?.bind fun op => ofSettings? op (.list settings)
    | .fields entries =>
      match entries.filter (·.1.text? == some "op") with
      | [(_, op)] =>
        op.text?.bind fun op => ofSettings? op (.fields (entries.filter (·.1.text? != some "op")))
      | _ => none
    | _ => none

end StageSpec

/-- One step of a run. -/
structure Stage where
  /-- Its number. -/
  step : StepId
  /-- What it does. -/
  spec : StageSpec
  /-- The label of the records it makes. -/
  label : String
  /-- The steps whose records it takes, left before right. -/
  inputs : List StepId
deriving DecidableEq

namespace Stage

/-- The JSON form of a stage. -/
def toJson (s : Stage) : Json :=
  .object [("step", s.step.toJson), ("spec", s.spec.toJson), ("label", .string s.label),
    ("depends_on", .array (s.inputs.map StepId.toJson))]

/-- The stage that a document writes. -/
def ofDocument? (doc : Document) : Option Stage :=
  match doc.structure? true ["step", "spec", "label", "depends_on"] with
  | some [some step, some spec, some label, some inputs] =>
    match StepId.ofDocument? step, StageSpec.ofDocument? spec, label.text?,
        inputs.listOf? StepId.ofDocument? with
    | some step, some spec, some label, some inputs => some ⟨step, spec, label, inputs⟩
    | _, _, _, _ => none
  | _ => none

/-- The line of a stage in the listing of a graph. -/
def line (s : Stage) : String :=
  let inputs :=
    if s.inputs.isEmpty then "" else "  <- " ++ ", ".intercalate (s.inputs.map (·.digits))
  String.ofList (Text.padLeft ' ' 4 s.step.digits.toList) ++ "  "
    ++ String.ofList (Text.padRight ' ' 8 s.label.toList) ++ " " ++ s.spec.text ++ inputs ++ "\n"

end Stage

end StagedAlgebra
