import StagedAlgebra.Condition

/-!
# Plans

A plan is a tree of relational operators over named relations. Records flow through it under a
*label*: a scan labels its records with the relation, a renaming with the new label, and a cross
product or join with the labels of both sides. `label` gives that label for a whole plan.

The *leaves* of a plan are the labels that its attributes can belong to. A renaming is a leaf of
its own; behind it stands the one relation that it renames, if there is one.
-/

namespace StagedAlgebra

/-- A tree of relational operators. -/
inductive Plan where
  /-- All records of a relation. -/
  | scan (relation : String)
  /-- The records that satisfy a condition. -/
  | select (condition : Condition) (input : Plan)
  /-- The records cut down to some attributes, without repetition. -/
  | project (attributes : List Attribute) (input : Plan)
  /-- The records under another label. -/
  | rename (newLabel : String) (input : Plan)
  /-- Every pair of records. -/
  | cross (left right : Plan)
  /-- Every pair of records that satisfies a condition. -/
  | join (left : Plan) (condition : Condition) (right : Plan)
deriving DecidableEq

/-- The operators of plans. -/
inductive OperatorKind where
  /-- Reads a relation. -/
  | scan
  /-- Keeps records by a condition. -/
  | select
  /-- Keeps attributes. -/
  | project
  /-- Changes the label. -/
  | rename
  /-- Pairs records. -/
  | cross
  /-- Pairs records by a condition. -/
  | join
deriving DecidableEq

/-- The name of an operator. -/
def OperatorKind.name : OperatorKind → String
  | .scan => "scan"
  | .select => "select"
  | .project => "project"
  | .rename => "rename"
  | .cross => "cross"
  | .join => "join"

/-- A label that attributes can belong to, and the relation behind it if it is a single one. -/
structure LeafSource where
  /-- The label. -/
  label : String
  /-- The relation behind the label. -/
  base : Option String
deriving DecidableEq

namespace Plan

/-- The operator at the root. -/
def kind : Plan → OperatorKind
  | .scan _ => .scan
  | .select .. => .select
  | .project .. => .project
  | .rename .. => .rename
  | .cross .. => .cross
  | .join .. => .join

/-- The number of inputs of the operator at the root. -/
def arity : Plan → Nat
  | .scan _ => 0
  | .select .. | .project .. | .rename .. => 1
  | .cross .. | .join .. => 2

/-- The number of operators. -/
def size : Plan → Nat
  | .scan _ => 1
  | .select _ input | .project _ input | .rename _ input => input.size + 1
  | .cross left right | .join left _ right => left.size + right.size + 1

/-- A plan has at least one operator. -/
theorem size_pos (p : Plan) : 0 < p.size := by
  cases p <;> simp [size]

/-- Whether there is a cross product. -/
def hasCross : Plan → Bool
  | .scan _ => false
  | .select _ input | .project _ input | .rename _ input => input.hasCross
  | .cross .. => true
  | .join left _ right => left.hasCross || right.hasCross

/-- The label of the records of a cross product or join. -/
def pairLabel (left right : String) : String :=
  left ++ "," ++ right

/-- The label under which the records of a plan flow. -/
def label : Plan → String
  | .scan relation => relation
  | .select _ input | .project _ input => input.label
  | .rename newLabel _ => newLabel
  | .cross left right | .join left _ right => pairLabel left.label right.label

/-- The one relation that a plan reads, if no two inputs are paired. -/
def base? : Plan → Option String
  | .scan relation => some relation
  | .select _ input | .project _ input | .rename _ input => input.base?
  | .cross .. | .join .. => none

/-- The labels that attributes can belong to, from left to right. -/
def leaves : Plan → List LeafSource
  | .scan relation => [⟨relation, some relation⟩]
  | .select _ input | .project _ input => input.leaves
  | .rename newLabel input => [⟨newLabel, input.base?⟩]
  | .cross left right | .join left _ right => left.leaves ++ right.leaves

/-- The labels of the leaves. -/
def labels (p : Plan) : List String :=
  p.leaves.map (·.label)

/-- The text of a plan. -/
def text : Plan → String
  | .scan relation => relation
  | .select c input => "\\select_\x7b" ++ c.text ++ "\x7d (" ++ input.text ++ ")"
  | .project attributes input =>
    "\\project_\x7b" ++ ", ".intercalate (attributes.map (·.text)) ++ "\x7d (" ++ input.text ++ ")"
  | .rename newLabel input => "\\rename_\x7b" ++ newLabel ++ ": *\x7d (" ++ input.text ++ ")"
  | .cross left right => "(" ++ left.text ++ ") \\cross (" ++ right.text ++ ")"
  | .join left c right =>
    "(" ++ left.text ++ ") \\join_\x7b" ++ c.text ++ "\x7d (" ++ right.text ++ ")"

end Plan

end StagedAlgebra
