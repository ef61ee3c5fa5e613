import StagedAlgebra.Dictionary
import StagedAlgebra.Plan

/-!
# Resolving attributes before a run

An attribute in a plan belongs to one of the leaves in scope. A reference that names its relation
belongs to the leaf with that label. A bare name belongs to the one relation that declares it, and
then to the one leaf behind which that relation stands. Anything else is unresolved or ambiguous.
-/

namespace StagedAlgebra

/-- Where the attributes of a condition belong. -/
inductive Resolution where
  /-- To these labels, ascending. -/
  | resolved (labels : List String)
  /-- An attribute may belong to several relations or leaves. -/
  | ambiguous (reference : Attribute)
  /-- An attribute belongs to none. -/
  | unresolved (reference : Attribute)
deriving DecidableEq

/-- Texts in ascending order, each once. -/
def ascendingSet (texts : List String) : List String :=
  (Table.ofList (texts.map (·, ()))).keys

namespace Attribute

/-- The leaves behind which a relation stands. -/
def leavesOf (scope : List LeafSource) (relation : String) : List LeafSource :=
  scope.filter fun leaf => leaf.base == some relation

/-- Where an attribute belongs. -/
def resolve (a : Attribute) (scope : List LeafSource) (d : Dictionary) : Resolution :=
  match a.relation with
  | some relation =>
    if scope.any (·.label == relation) then .resolved [relation] else .unresolved a
  | none =>
    match d.owners a.name with
    | [] => .unresolved a
    | [owner] =>
      match leavesOf scope owner with
      | [] => .unresolved a
      | [leaf] => .resolved [leaf.label]
      | _ => .ambiguous a
    | _ => .ambiguous a

end Attribute

namespace Resolution

/-- Where a list of attributes belongs, as far as each can be resolved; the first one that cannot
decides. -/
def ofAttributes (scope : List LeafSource) (d : Dictionary) : List Attribute → Resolution
  | [] => .resolved []
  | a :: rest =>
    match a.resolve scope d with
    | .resolved labels =>
      match ofAttributes scope d rest with
      | .resolved more => .resolved (labels ++ more)
      | other => other
    | other => other

end Resolution

/-- Where the attributes of a condition belong. -/
def Condition.resolve (c : Condition) (scope : List LeafSource) (d : Dictionary) : Resolution :=
  match Resolution.ofAttributes scope d c.attributes with
  | .resolved labels => .resolved (ascendingSet labels)
  | other => other

end StagedAlgebra
