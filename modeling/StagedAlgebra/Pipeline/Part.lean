import StagedAlgebra.Document.References

/-!
# Parts of a plan file

A plan file is made of parts of a few kinds. Structures have the parts that their fields name, and
choices those that their variants name. `Part.route` says from this what is read of the plan in a
plan file.

## Implementation notes

Settings and dictionaries have a fixed depth, so that references in them cannot multiply at every
step as they can in a plan. The route does not go into them.
-/

namespace StagedAlgebra.Pipeline

/-- The kinds of parts of a plan file. -/
inductive Part where
  /-- The whole file. -/
  | file
  /-- Settings or a dictionary. -/
  | shallow
  /-- A plan. -/
  | plan
  /-- The body of a scan. -/
  | scan
  /-- The body of a selection. -/
  | select
  /-- The body of a projection. -/
  | project
  /-- The body of a renaming. -/
  | rename
  /-- The body of a cross product. -/
  | cross
  /-- The body of a join. -/
  | join
  /-- A condition. -/
  | condition
  /-- An operator of a condition with its two sides. -/
  | binary
  /-- A choice without parts, or with a leaf. -/
  | variant
  /-- A list of leaves. -/
  | leaves
  /-- A leaf. -/
  | leaf
deriving DecidableEq

namespace Part

/-- The fields of a structure, in the order in which a list gives them. -/
def fields : Part → List (String × Part)
  | .file => [("config", .shallow), ("dictionary", .shallow), ("plan", .plan)]
  | .scan => [("relation", .leaf)]
  | .select => [("condition", .condition), ("input", .plan)]
  | .project => [("attributes", .leaves), ("input", .plan)]
  | .rename => [("alias", .leaf), ("input", .plan)]
  | .cross => [("left", .plan), ("right", .plan)]
  | .join => [("left", .plan), ("condition", .condition), ("right", .plan)]
  | .binary => [("op", .variant), ("left", .condition), ("right", .condition)]
  | _ => []

/-- The variants of a choice. -/
def variants : Part → List (String × Part)
  | .plan => [("scan", .scan), ("select", .select), ("project", .project), ("rename", .rename),
      ("cross", .cross), ("join", .join)]
  | .condition => [("attr", .leaf), ("literal", .variant), ("binary", .binary)]
  | _ => []

/-- What the field of a part with a name is. -/
def field? (part : Part) (name : String) : Option Part :=
  match part with
  | .variant => some .leaf
  | .plan | .condition => part.variants.lookup name
  | _ => part.fields.lookup name

/-- What the item of a part with a number is. -/
def item? (part : Part) (index : Nat) : Option Part :=
  match part with
  | .leaves => some .leaf
  | _ => part.fields[index]?.map (·.2)

/-- What is read of the plan in a plan file. -/
def route : Route Part := ⟨field?, item?⟩

end Part

end StagedAlgebra.Pipeline
