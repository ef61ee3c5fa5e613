import StagedAlgebra.Storage

/-!
# Record files

A record file holds one record a line. Lines of blanks are skipped when it is read, and every line
ends with a line feed when it is written.
-/

namespace StagedAlgebra

/-- The lines of records, each with its end, as characters. -/
def recordFileChars : List Record → List Char
  | [] => []
  | r :: rest => r.lineChars ++ '\n' :: recordFileChars rest

/-- The file of a list of records. -/
def encodeRecords (records : List Record) : ByteArray :=
  (String.ofList (recordFileChars records)).toUTF8

/-- The records of numbered lines; lines of blanks are skipped. -/
def decodeLines (path : String) : List (Nat × List Char) → Except StorageFault (List Record)
  | [] => .ok []
  | (number, line) :: rest =>
    if line.all Text.isBlank then decodeLines path rest
    else
      match Record.parseChars line with
      | .error fault => .error (.badLine path number fault)
      | .ok r => (decodeLines path rest).map (r :: ·)

/-- The records of a file; `path` is its name in messages. -/
def decodeRecords (path : String) (content : ByteArray) : Except StorageFault (List Record) :=
  match String.fromUTF8? content with
  | none => .error (.notText path)
  | some text => decodeLines path (Text.numberedLines text.toList)

end StagedAlgebra
