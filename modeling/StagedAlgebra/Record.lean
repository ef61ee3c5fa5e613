import StagedAlgebra.Scalar
import StagedAlgebra.Table
import StagedAlgebra.Text.Split

/-!
# Records

A record is a tuple of scalars under keys, together with the label under which it flows. On a
line of text it is the label, a tab, and the tuple as a JSON object.

The keys of a tuple ascend, so its JSON text is the same for equal tuples and serves as a key
itself.
-/

namespace StagedAlgebra

/-- Scalars under the keys of attributes. -/
abbrev Tuple := Table Scalar

namespace Tuple

/-- The JSON form of a tuple. -/
def toJson (t : Tuple) : Json :=
  .object (t.entries.map fun (key, value) => (key, value.toJson))

/-- The JSON text of a tuple. -/
def text (t : Tuple) : String :=
  (toJson t).compact

/-- The entry that a field of a JSON object is. -/
def entryOfJson? (field : String × Json) : Option (String × Scalar) :=
  (Scalar.ofJson? field.2).map fun value => (field.1, value)

/-- The tuple that a JSON value is; of two fields with one name the later one counts. -/
def ofJson? : Json → Option Tuple
  | .object fields => (fields.mapM entryOfJson?).map Table.ofList
  | _ => none

end Tuple

/-- A tuple and the label under which it flows. -/
structure Record where
  /-- The label. -/
  label : String
  /-- The values. -/
  tuple : Tuple
deriving DecidableEq

/-- Why a line is no record. -/
inductive RecordFault where
  /-- There is no tab. -/
  | noTab (line : String)
  /-- What follows the tab is no tuple. -/
  | unreadable
deriving DecidableEq

/-- The part of a message that stands for the reason why a JSON text cannot be read. -/
def unreadableJson : String := "<json error>"

/-- The message about a line that is no record. -/
def RecordFault.message : RecordFault → String
  | .noTab line => "Record codec error: record line without a tab: '" ++ line ++ "'"
  | .unreadable => "Record codec error: " ++ unreadableJson

namespace Record

/-- The line of a record, as characters. -/
def lineChars (r : Record) : List Char :=
  r.label.toList ++ '\t' :: Json.write [] (Tuple.toJson r.tuple)

/-- The line of a record. -/
def line (r : Record) : String :=
  String.ofList r.lineChars

/-- The record of a line. -/
def parseChars (cs : List Char) : Except RecordFault Record :=
  match Text.splitOnce '\t' cs with
  | none => .error (.noTab (String.ofList cs))
  | some (label, json) =>
    match (Json.parse (String.ofList json)).bind Tuple.ofJson? with
    | some tuple => .ok ⟨String.ofList label, tuple⟩
    | none => .error .unreadable

/-- Reads a line. -/
def parse (s : String) : Except RecordFault Record :=
  parseChars s.toList

/-- The JSON form of a record. -/
def toJson (r : Record) : Json :=
  .object [("label", .string r.label), ("tuple", Tuple.toJson r.tuple)]

end Record

end StagedAlgebra
