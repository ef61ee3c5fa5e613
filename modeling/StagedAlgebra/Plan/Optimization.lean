import StagedAlgebra.Plan.Selections

/-!
# Joins and the optimisation of plans

A selection above a cross product that equates attributes of the two sides is a join. Once the
selections are split, sunk and merged, `introduceJoins` finds every such selection, and a further
one above a join extends the join.
-/

namespace StagedAlgebra

/-- Whether a condition equates an attribute of one list of labels with one of the other. -/
def Condition.linksLabels (left right : List String) (c : Condition) : Bool :=
  match c.attributePair? with
  | some (⟨some a, _⟩, ⟨some b, _⟩) =>
    (left.contains a && right.contains b) || (left.contains b && right.contains a)
  | _ => false

namespace Plan

/-- Whether every conjunct of a condition equates attributes of the two plans. -/
def isEquiJoin (c : Condition) (left right : Plan) : Bool :=
  c.conjuncts.all (Condition.linksLabels left.labels right.labels)

/-- A selection above a plan, made part of the join it is. -/
def selectOrJoin (c : Condition) : Plan → Plan
  | .cross left right =>
    if isEquiJoin c left right then .join left c right else .select c (.cross left right)
  | .join left d right =>
    if isEquiJoin c left right then .join left (.both d c) right
    else .select c (.join left d right)
  | input => .select c input

/-- Selections above cross products and joins turned into joins. -/
def introduceJoins : Plan → Plan
  | .scan relation => .scan relation
  | .select c input => selectOrJoin c input.introduceJoins
  | .project attributes input => .project attributes input.introduceJoins
  | .rename newLabel input => .rename newLabel input.introduceJoins
  | .cross left right => .cross left.introduceJoins right.introduceJoins
  | .join left c right => .join left.introduceJoins c right.introduceJoins

/-- The four rewritings in their order. -/
def optimize (d : Dictionary) (p : Plan) : Plan :=
  ((p.splitSelections.sinkSelections d).mergeSelections).introduceJoins

end Plan

end StagedAlgebra
