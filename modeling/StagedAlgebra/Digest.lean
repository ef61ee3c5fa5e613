import StagedAlgebra.Digest.Blake3
import StagedAlgebra.StageGraph

/-!
# Digests

A digest identifies a plan, a graph or the records of a result. Plans and graphs are hashed in
their JSON form. Records are hashed as their lines in ascending order, so that the digest does
not depend on the order in which a run brought them out.
-/

namespace StagedAlgebra

/-- A hash value. -/
structure Digest where
  /-- Its bytes. -/
  bytes : List UInt8
deriving DecidableEq

namespace Digest

/-- The digest of bytes. -/
def ofBytes (bytes : ByteArray) : Digest :=
  ⟨Blake3.hash bytes.data.toList⟩

/-- The digest of a text. -/
def ofText (s : String) : Digest :=
  ofBytes s.toUTF8

/-- The digest of a JSON value. -/
def ofJson (j : Json) : Digest :=
  ofText j.compact

/-- The digest of a stage graph. -/
def ofGraph (g : StageGraph) : Digest :=
  ofJson g.toJson

/-- The text that stands for a list of records: their lines in ascending order, with line feeds
between them. -/
def recordText (records : List Record) : String :=
  "\n".intercalate ((records.map Record.line).mergeSort fun a b => decide (a ≤ b))

/-- The digest of a list of records. -/
def ofRecords (records : List Record) : Digest :=
  ofText (recordText records)

/-- Writes a JSON value for hashing, or tells why it cannot be written. What could not be written is
a name that is no text, and all names in a JSON value are texts. -/
def written (j : Json) : Except String String :=
  .ok j.compact

/-- Hashes a stage graph, unless it cannot be written. -/
def hashGraph (g : StageGraph) : Except String Digest :=
  (written g.toJson).map ofText

/-- Writes the line of a record, unless its tuple cannot be written. -/
def writtenLine (r : Record) : Except String String :=
  (written (Tuple.toJson r.tuple)).map fun tuple => r.label ++ "\t" ++ tuple

/-- Hashes a list of records in ascending order of their lines, unless one of them cannot be
written. -/
def hashRecords (records : List Record) : Except String Digest :=
  (records.mapM writtenLine).map fun lines =>
    ofText ("\n".intercalate (lines.mergeSort fun a b => decide (a ≤ b)))

/-- All graphs can be hashed. -/
theorem hashGraph_eq (g : StageGraph) : hashGraph g = .ok (ofGraph g) :=
  rfl

theorem writtenLine_eq (r : Record) : writtenLine r = .ok r.line := by
  have same : r.label ++ "\t" ++ (Tuple.toJson r.tuple).compact = r.line := by
    apply String.toList_inj.mp
    simp [Record.line, Record.lineChars, Json.compact]
  exact congrArg Except.ok same

/-- All records can be hashed. -/
theorem hashRecords_eq (records : List Record) : hashRecords records = .ok (ofRecords records) := by
  have lines : records.mapM writtenLine = pure (records.map Record.line) := by
    rw [funext writtenLine_eq]
    exact List.mapM_pure
  rw [hashRecords, lines]
  rfl

/-- The hexadecimal text of a digest. -/
def hex (d : Digest) : String :=
  String.ofList (d.bytes.flatMap fun b =>
    [Json.hexDigit (b.toNat / 16), Json.hexDigit (b.toNat % 16)])

/-- The JSON form of a digest: the list of its bytes. -/
def toJson (d : Digest) : Json :=
  .array (d.bytes.map fun b => .int b.toNat)

end Digest

end StagedAlgebra
