import StagedAlgebra.Plan
import StagedAlgebra.Condition.Document

/-!
# Plans in documents

A plan is written as a choice among its six operators, each with a structure as its body.

## Implementation notes

Reading recurses on a budget for nested structures: every operator spends one, and so does a list
of attributes inside it.
-/

namespace StagedAlgebra

/-- The attributes that a document lists. -/
def Attribute.listOfDocument? (budget : Nat) (doc : Document) : Option (List Attribute) :=
  if budget = 0 then none else doc.listOf? fun item => item.text?.bind Attribute.parse?

/-- The JSON form of a list of attributes. -/
def Attribute.listToJson (attributes : List Attribute) : Json :=
  Json.strings (attributes.map (·.text))

namespace Plan

/-- The JSON form of a plan. -/
def toJson : Plan → Json
  | .scan relation => .object [("scan", .object [("relation", .string relation)])]
  | .select c input =>
    .object [("select", .object [("condition", c.toJson), ("input", input.toJson)])]
  | .project attributes input =>
    .object [("project", .object
      [("attributes", Attribute.listToJson attributes), ("input", input.toJson)])]
  | .rename newLabel input =>
    .object [("rename", .object [("alias", .string newLabel), ("input", input.toJson)])]
  | .cross left right =>
    .object [("cross", .object [("left", left.toJson), ("right", right.toJson)])]
  | .join left c right =>
    .object [("join", .object
      [("left", left.toJson), ("condition", c.toJson), ("right", right.toJson)])]

/-- The plan that a document writes, with at most `budget` nested structures. -/
def ofDocument? (leniency : Leniency) : (budget : Nat) → Document → Option Plan
  | 0, _ => none
  | budget + 1, doc =>
    let field := fun body names => Document.structure? leniency.listBodies names body
    match doc.choice? ["scan", "select", "project", "rename", "cross", "join"] with
    | some ("scan", some body) =>
      match field body ["relation"] with
      | some [some relation] => relation.text?.map .scan
      | _ => none
    | some ("select", some body) =>
      match field body ["condition", "input"] with
      | some [some c, some input] =>
        match Condition.ofDocument? leniency budget c, ofDocument? leniency budget input with
        | some c, some input => some (.select c input)
        | _, _ => none
      | _ => none
    | some ("project", some body) =>
      match field body ["attributes", "input"] with
      | some [some attributes, some input] =>
        match Attribute.listOfDocument? budget attributes, ofDocument? leniency budget input with
        | some attributes, some input => some (.project attributes input)
        | _, _ => none
      | _ => none
    | some ("rename", some body) =>
      match field body ["alias", "input"] with
      | some [some newLabel, some input] =>
        match newLabel.text?, ofDocument? leniency budget input with
        | some newLabel, some input => some (.rename newLabel input)
        | _, _ => none
      | _ => none
    | some ("cross", some body) =>
      match field body ["left", "right"] with
      | some [some left, some right] =>
        match ofDocument? leniency budget left, ofDocument? leniency budget right with
        | some left, some right => some (.cross left right)
        | _, _ => none
      | _ => none
    | some ("join", some body) =>
      match field body ["left", "condition", "right"] with
      | some [some left, some c, some right] =>
        match ofDocument? leniency budget left, Condition.ofDocument? leniency budget c,
            ofDocument? leniency budget right with
        | some left, some c, some right => some (.join left c right)
        | _, _, _ => none
      | _ => none
    | _ => none

end Plan

end StagedAlgebra
