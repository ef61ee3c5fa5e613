import StagedAlgebra.Document

/-!
# References in documents

References let a short text stand for a document that is large, or that has no end where a
reference leads to what it stands in. A reader that follows every reference it meets needs a bound.
`Document.follow` goes through the part of a document that a reader reads, and answers how much of a
budget of references is left after it.

## Implementation notes

What a reader skips is not followed. Which fields and items it reads depends on what it takes the
document for, so a `Route` says for each kind of document which kinds its fields and items are.
-/

namespace StagedAlgebra

/-- What a reader takes the fields and items of a document for. A field or an item without a kind
is not read. -/
structure Route (κ : Type) where
  /-- The kind of the field with a name. -/
  field? : κ → String → Option κ
  /-- The kind of the item with a number. -/
  item? : κ → Nat → Option κ

/-- The references that are followed for the name of a field. -/
def FieldName.references : FieldName → Nat
  | .referred _ => 1
  | .written _ | .nameless => 0

namespace Document

mutual

/-- What is left of a budget after every reference in what is read of a document is followed, those
inside what it leads to included. Nothing is left if more than `depth` collections are nested. -/
def follow (route : Route κ) (kind : κ) (depth budget : Nat) : Document → Option Nat
  | .leaf _ | .unreadable => some budget
  | .list items => if depth = 0 then none else followItems route kind (depth - 1) budget 0 items
  | .fields entries =>
    if depth = 0 then none else followEntries route kind (depth - 1) budget entries
  | .tagged _ body => body.follow route kind depth budget
  | .referred body => if budget = 0 then none else body.follow route kind depth (budget - 1)

/-- What is left of a budget after the references in the items of a list are followed, the first of
which has the number `index`. -/
def followItems (route : Route κ) (kind : κ) (depth budget index : Nat) :
    List Document → Option Nat
  | [] => some budget
  | item :: items =>
    match route.item? kind index with
    | none => followItems route kind depth budget (index + 1) items
    | some inner =>
      match item.follow route inner depth budget with
      | some left => followItems route kind depth left (index + 1) items
      | none => none

/-- What is left of a budget after the references in names and values of fields are followed. -/
def followEntries (route : Route κ) (kind : κ) (depth budget : Nat) :
    List (FieldName × Document) → Option Nat
  | [] => some budget
  | (name, value) :: entries =>
    if budget < name.references then none
    else
      let left := budget - name.references
      match name.text?.bind (route.field? kind) with
      | none => followEntries route kind depth left entries
      | some inner =>
        match value.follow route inner depth left with
        | some left => followEntries route kind depth left entries
        | none => none

end

end Document

end StagedAlgebra
