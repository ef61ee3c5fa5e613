import StagedAlgebra.Document
import StagedAlgebra.Json.Reader
import StagedAlgebra.Table

/-!
# Dictionaries

A dictionary declares the attributes of relations, each with a type. It is asked for one thing
above all: which relations have an attribute of a given name.
-/

namespace StagedAlgebra

/-- The type of an attribute. -/
inductive AttributeType where
  /-- Text. -/
  | string
  /-- Integers. -/
  | integer
deriving DecidableEq

/-- The name of a type. -/
def AttributeType.name : AttributeType → String
  | .string => "string"
  | .integer => "integer"

/-- The type that a document names. -/
def AttributeType.ofDocument? (doc : Document) : Option AttributeType :=
  match doc.unit? .strict ["string", "integer"] with
  | some "string" => some .string
  | some "integer" => some .integer
  | _ => none

/-- The declared attributes of relations. -/
structure Dictionary where
  /-- The attributes under each relation. -/
  relations : Table (Table AttributeType)
deriving DecidableEq

namespace Dictionary

/-- The dictionary without relations. -/
def empty : Dictionary := ⟨.empty⟩

/-- A dictionary with a relation declared, in place of an earlier declaration of it. -/
def declare (d : Dictionary) (relation : String) (attributes : List (String × AttributeType)) :
    Dictionary :=
  ⟨d.relations.insert relation (Table.ofList attributes)⟩

/-- Whether a relation is declared. -/
def contains (d : Dictionary) (relation : String) : Bool :=
  d.relations.contains relation

/-- The attributes of a relation. -/
def attributes? (d : Dictionary) (relation : String) : Option (Table AttributeType) :=
  d.relations.get? relation

/-- The type of an attribute of a relation. -/
def type? (d : Dictionary) (relation name : String) : Option AttributeType :=
  (d.attributes? relation).bind (·.get? name)

/-- The relations that have an attribute, ascending. -/
def owners (d : Dictionary) (name : String) : List String :=
  (d.relations.entries.filter fun e => e.2.contains name).map (·.1)

/-- The JSON form of a dictionary. -/
def toJson (d : Dictionary) : Json :=
  .object (d.relations.entries.map fun (relation, attributes) =>
    (relation, .object (attributes.entries.map fun (name, type) => (name, .string type.name))))

/-- The attributes that a document declares; of two with one name the later one counts. -/
def attributesOfDocument? (doc : Document) : Option (Table AttributeType) :=
  (doc.entries?.bind fun entries =>
    entries.mapM fun (name, type) => (AttributeType.ofDocument? type).map (name, ·)).map Table.ofList

/-- The dictionary that a document writes; of two relations with one name the later one counts. -/
def ofDocument? (doc : Document) : Option Dictionary :=
  (doc.entries?.bind fun entries =>
    entries.mapM fun (relation, attributes) =>
      (attributesOfDocument? attributes).map (relation, ·)).map fun entries => ⟨Table.ofList entries⟩

/-- The dictionary that a JSON text writes. -/
def parse? (s : String) : Option Dictionary :=
  (Document.parseJson s).bind ofDocument?

end Dictionary

end StagedAlgebra
