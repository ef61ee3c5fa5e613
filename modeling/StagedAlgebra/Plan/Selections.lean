import StagedAlgebra.Resolution

/-!
# Rearranging selections

Three rewritings of plans that move selections and keep everything else.

* `splitSelections` turns each selection by a conjunction into one selection a conjunct.
* `sinkSelections` moves each selection above a cross product into the side that it concerns, as
  deep as its attributes allow.
* `mergeSelections` joins each chain of selections into one.

## Implementation notes

A chain of selections is gathered on the way down, outermost first, so that all three rewritings
recurse on the plan itself.
-/

namespace StagedAlgebra.Plan

/-- Selections by a list of conditions above a plan, the first one outermost. -/
def stack (conditions : List Condition) (input : Plan) : Plan :=
  conditions.foldr .select input

@[simp] theorem stack_nil (input : Plan) : stack [] input = input := rfl

@[simp] theorem stack_cons (c : Condition) (cs : List Condition) (input : Plan) :
    stack (c :: cs) input = .select c (stack cs input) := rfl

theorem stack_append (cs ds : List Condition) (input : Plan) :
    stack (cs ++ ds) input = stack cs (stack ds input) := by
  simp [stack]

/-- Selections do not change the leaves. -/
@[simp] theorem leaves_stack (cs : List Condition) (input : Plan) :
    (stack cs input).leaves = input.leaves := by
  induction cs with
  | nil => rfl
  | cons _ _ ih => simpa [leaves] using ih

/-- One selection for each conjunct of a selection. -/
def splitSelections : Plan → Plan
  | .scan relation => .scan relation
  | .select c input => stack c.conjuncts input.splitSelections
  | .project attributes input => .project attributes input.splitSelections
  | .rename newLabel input => .rename newLabel input.splitSelections
  | .cross left right => .cross left.splitSelections right.splitSelections
  | .join left c right => .join left.splitSelections c right.splitSelections

/-- Whether all of `labels` are labels of a plan. -/
def covers (p : Plan) (labels : List String) : Bool :=
  labels.all fun label => p.labels.contains label

/-- Puts a selection as deep into a plan as the labels of its attributes allow: into one side of a
cross product, and past the selections above one. -/
def insertSelection (c : Condition) (labels : List String) : Plan → Plan
  | .cross left right =>
    if left.covers labels then .cross (left.insertSelection c labels) right
    else if right.covers labels then .cross left (right.insertSelection c labels)
    else .select c (.cross left right)
  | .select d input => .select d (input.insertSelection c labels)
  | .scan relation => .select c (.scan relation)
  | .project attributes input => .select c (.project attributes input)
  | .rename newLabel input => .select c (.rename newLabel input)
  | .join left d right => .select c (.join left d right)

/-- Puts a selection above or into a plan, depending on where its attributes belong. -/
def placeSelection (scope : List LeafSource) (d : Dictionary) (p : Plan) (c : Condition) : Plan :=
  match c.resolve scope d with
  | .resolved labels => p.insertSelection c labels
  | _ => .select c p

/-- Sinks the selections of a plan; `chain` holds the conditions of the selections right above it,
outermost first. -/
def sinkFrom (d : Dictionary) (chain : List Condition) : Plan → Plan
  | .select c input => input.sinkFrom d (chain ++ [c])
  | .cross left right =>
    chain.foldl (placeSelection (Plan.cross left right).leaves d)
      (.cross (left.sinkFrom d []) (right.sinkFrom d []))
  | .scan relation => stack chain (.scan relation)
  | .project attributes input => stack chain (.project attributes (input.sinkFrom d []))
  | .rename newLabel input => stack chain (.rename newLabel (input.sinkFrom d []))
  | .join left c right => stack chain (.join (left.sinkFrom d []) c (right.sinkFrom d []))

/-- Selections above a cross product moved into its sides as deep as they go. -/
def sinkSelections (d : Dictionary) (p : Plan) : Plan :=
  p.sinkFrom d []

/-- One selection by the conjunction of some conditions, or none for no condition. -/
def selectAll (conditions : List Condition) (input : Plan) : Plan :=
  match Condition.conjunction conditions with
  | some c => .select c input
  | none => input

/-- Merges the selections of a plan; `chain` holds the conditions of the selections right above
it, outermost first. -/
def mergeFrom (chain : List Condition) : Plan → Plan
  | .select c input => input.mergeFrom (chain ++ [c])
  | .scan relation => selectAll chain (.scan relation)
  | .project attributes input => selectAll chain (.project attributes (input.mergeFrom []))
  | .rename newLabel input => selectAll chain (.rename newLabel (input.mergeFrom []))
  | .cross left right => selectAll chain (.cross (left.mergeFrom []) (right.mergeFrom []))
  | .join left c right => selectAll chain (.join (left.mergeFrom []) c (right.mergeFrom []))

/-- One selection for each chain of selections. -/
def mergeSelections (p : Plan) : Plan :=
  p.mergeFrom []

end StagedAlgebra.Plan
