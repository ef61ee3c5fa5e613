import StagedAlgebra.Dictionary
import StagedAlgebra.Pipeline.Part
import StagedAlgebra.Plan.Document
import StagedAlgebra.Settings
import StagedAlgebra.Yaml.Node.Document

/-!
# Plan files

A plan file is a YAML text with a plan, and with a dictionary and settings if they are wanted.
-/

namespace StagedAlgebra

/-- What a plan file says. -/
structure Pipeline where
  /-- The plan. -/
  plan : Plan
  /-- The attributes of the relations. -/
  dictionary : Dictionary := .empty
  /-- The settings that the file fixes. -/
  settings : SettingsOverlay := {}

namespace Pipeline

/-- How many structures may be nested in the plan of a file. -/
def nestingLimit : Nat := 127

/-- How many collections may be nested in a plan file. A structure stands in the choice of its
variant, so that there are two for each structure of the plan; a literal has two more, and the file
itself is one. -/
def collectionLimit : Nat := 2 * nestingLimit + 3

/-- How many references may be followed in the plan of a file. Each of them adds to the plan, so
that only a plan of this size meets the limit; it ends the reading of a text in which references
multiply at every step. -/
def followLimit : Nat := 10000000

/-- The names of the parts of a plan file. -/
def names : List String :=
  ["config", "dictionary", "plan"]

/-- The pipeline that a document writes. -/
def ofDocument? (doc : Document) : Option Pipeline :=
  match doc.structure? true names with
  | some [settings, dictionary, some plan] =>
    match optionalField SettingsOverlay.ofDocument? settings,
        fieldOr Dictionary.ofDocument? .empty dictionary,
        Plan.ofDocument? .lists nestingLimit plan with
    | some settings, some dictionary, some plan =>
      some ⟨plan, dictionary, settings.getD {}⟩
    | _, _, _ => none
  | _ => none

/-- The pipeline of a plan file, unless references are followed too often in its plan. -/
def parse? (s : String) : Option Pipeline :=
  match Yaml.parse? collectionLimit s with
  | none => none
  | some doc =>
    match doc.follow Part.route .file collectionLimit followLimit with
    | some _ => ofDocument? doc
    | none => none

end Pipeline

end StagedAlgebra
