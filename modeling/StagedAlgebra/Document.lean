import StagedAlgebra.Json.Reader

/-!
# Documents

A `Document` is the common shape of the formats that plans, graphs and settings are written in:
leaves, lists and named fields. A leaf carries every reading it admits, because one and the same
piece of text is a number in one place and a name in another when it is written without quotes.

On top of it stand the two patterns in which data is laid out.

* A *structure* has fields with fixed names. Each may be given once; fields with other names are
  skipped. A structure may also be given as the list of its fields in order.
* A *choice* is one of several named variants: the bare name of the variant, or one field whose
  name is the variant's and whose value is its body.

## Implementation notes

The formats differ in how much of this they allow, which `Leniency` says. A document read from a
structured text may carry a local tag, which picks a variant, or stand in the place of a reference;
everywhere else both are looked through. What is skipped need not be readable, so a part that
cannot be read is kept as such and fails only where it is wanted.
-/

namespace StagedAlgebra

/-- What a leaf says where a value may be left out. -/
inductive Presence where
  /-- There is a value. -/
  | given
  /-- The value is left out. -/
  | leftOut
  /-- The leaf is declared as a left out value but writes another one. -/
  | contradictory
deriving DecidableEq

/-- The readings of one piece of text. -/
structure Leaf where
  /-- Its reading as text. -/
  text : Option String := none
  /-- Its reading as an integer. -/
  int : Option Int := none
  /-- Its reading as a truth value. -/
  bool : Option Bool := none
  /-- Whether it reads as the empty value. -/
  isNull : Bool := false
  /-- What it says where a value may be left out. -/
  presence : Presence := .given

/-- The name of a field. -/
inductive FieldName where
  /-- A name that is written at its place. -/
  | written (name : String)
  /-- A name that is given by reference. -/
  | referred (name : String)
  /-- No name, but something that is not text. -/
  | nameless
deriving DecidableEq

/-- The text of the name of a field. -/
def FieldName.text? : FieldName → Option String
  | .written name | .referred name => some name
  | .nameless => none

/-- The common shape of plans, graphs and settings in their written form. -/
inductive Document where
  /-- One piece of text. -/
  | leaf (value : Leaf)
  /-- A list. -/
  | list (items : List Document)
  /-- Fields in the order written. -/
  | fields (entries : List (FieldName × Document))
  /-- A document with a local tag. -/
  | tagged (tag : String) (body : Document)
  /-- A document that is given by reference. -/
  | referred (body : Document)
  /-- What cannot be read. -/
  | unreadable

/-- What a format allows beyond the plain patterns. -/
structure Leniency where
  /-- The body of a variant may be the list of its fields in order. -/
  listBodies : Bool
  /-- A variant without fields may have a body without fields. -/
  emptyUnits : Bool

namespace Leniency

/-- Only the plain patterns. -/
def strict : Leniency := ⟨false, false⟩

/-- Bodies may be lists. -/
def lists : Leniency := ⟨true, false⟩

/-- Bodies may be lists, and a variant without fields may have an empty body. -/
def full : Leniency := ⟨true, true⟩

end Leniency

namespace Document

/-- A document without its tags and references. -/
def untagged : Document → Document
  | .tagged _ body => body.untagged
  | .referred body => body.untagged
  | doc => doc

/-- The leaf that a document is. -/
def leaf? (doc : Document) : Option Leaf :=
  match doc.untagged with
  | .leaf l => some l
  | _ => none

/-- The text that a document is. -/
def text? (doc : Document) : Option String :=
  doc.leaf?.bind (·.text)

/-- The truth value that a document is. -/
def bool? (doc : Document) : Option Bool :=
  doc.leaf?.bind (·.bool)

/-- The signed 64-bit integer that a document is. -/
def int64? (doc : Document) : Option Int64 :=
  match doc.leaf?.bind (·.int) with
  | some i => if Text.inInt64 i then some (Int64.ofInt i) else none
  | none => none

/-- The unsigned 64-bit integer that a document is. -/
def word64? (doc : Document) : Option Nat :=
  match doc.leaf?.bind (·.int) with
  | some i => if 0 ≤ i ∧ i.toNat < Text.wordCount then some i.toNat else none
  | none => none

/-- Whether a document is the empty value. -/
def isNull (doc : Document) : Bool :=
  match doc.leaf? with
  | some l => l.isNull
  | none => false

/-- What a document says where a value may be left out. -/
def presence (doc : Document) : Presence :=
  match doc.leaf? with
  | some l => l.presence
  | none => .given

/-- A value that may be left out, read by `read`. -/
def optional? (read : Document → Option α) (doc : Document) : Option (Option α) :=
  match doc.presence with
  | .given => (read doc).map some
  | .leftOut => some none
  | .contradictory => none

/-- The items of a list. -/
def items? (doc : Document) : Option (List Document) :=
  match doc.untagged with
  | .list items => some items
  | _ => none

/-- Every item of a list read by `read`. -/
def listOf? (read : Document → Option α) (doc : Document) : Option (List α) :=
  doc.items?.bind (·.mapM read)

/-- The entries of a document with fields, all of whose names are text. -/
def entries? (doc : Document) : Option (List (String × Document)) :=
  match doc.untagged with
  | .fields entries => entries.mapM fun (name, value) => name.text?.map (·, value)
  | _ => none

/-- The values of the fields with a name. -/
def valuesNamed (name : String) (entries : List (String × Document)) : List Document :=
  (entries.filter fun e => e.1 == name).map (·.2)

/-- The fields of a structure in the order of their names, absent where they are not given. It
fails if a field is given twice, or if a list gives more fields than there are. -/
def structure? (lists : Bool) (names : List String) (doc : Document) :
    Option (List (Option Document)) :=
  match doc.untagged with
  | .list items =>
    if lists && items.length ≤ names.length then
      some (items.map some ++ List.replicate (names.length - items.length) none)
    else none
  | .fields _ =>
    doc.entries?.bind fun entries =>
      names.mapM fun name =>
        match valuesNamed name entries with
        | [] => some none
        | [value] => some (some value)
        | _ => none
  | _ => none

/-- The variant that a document chooses among `names`, with its body if it has one. The name of
the only field must be written at its place. -/
def choice? (names : List String) (doc : Document) : Option (String × Option Document) :=
  match doc with
  | .tagged tag body =>
    if names.contains tag then some (tag, some body) else choice? names body
  | .referred body => choice? names body
  | .leaf l => l.text.bind fun name => if names.contains name then some (name, none) else none
  | .fields [(.written name, body)] => if names.contains name then some (name, some body) else none
  | _ => none

/-- Whether the body of a variant without fields is as it should be. -/
def isUnitBody (leniency : Leniency) : Option Document → Bool
  | none => true
  | some body => body.isNull ||
    (leniency.emptyUnits && match body.untagged with
      | .fields [] => true
      | _ => false)

/-- The name of the variant without fields that a document chooses among `names`. -/
def unit? (leniency : Leniency) (names : List String) (doc : Document) : Option String :=
  match doc.choice? names with
  | some (name, body) => if isUnitBody leniency body then some name else none
  | none => none

mutual

/-- The number of nested lists and field groups of a document. -/
def depth : Document → Nat
  | .leaf _ | .unreadable => 0
  | .list items => depthItems items + 1
  | .fields entries => depthEntries entries + 1
  | .tagged _ body | .referred body => body.depth

/-- The largest depth of the items of a list. -/
def depthItems : List Document → Nat
  | [] => 0
  | item :: items => max item.depth (depthItems items)

/-- The largest depth of the values of fields. -/
def depthEntries : List (FieldName × Document) → Nat
  | [] => 0
  | (_, value) :: entries => max value.depth (depthEntries entries)

end

mutual

/-- Whether a document can be read in all its parts. -/
def isReadable : Document → Bool
  | .leaf _ => true
  | .list items => isReadableList items
  | .fields entries => areReadableFields entries
  | .tagged _ body | .referred body => body.isReadable
  | .unreadable => false

/-- Whether all items of a list can be read. -/
def isReadableList : List Document → Bool
  | [] => true
  | item :: items => item.isReadable && isReadableList items

/-- Whether all names and values of fields can be read. -/
def areReadableFields : List (FieldName × Document) → Bool
  | [] => true
  | (name, value) :: entries =>
    name.text?.isSome && value.isReadable && areReadableFields entries

end

mutual

/-- A JSON value as a document. -/
def ofJson : Json → Document
  | .null => .leaf { isNull := true, presence := .leftOut }
  | .bool b => .leaf { bool := some b }
  | .int i => .leaf { int := some i }
  | .float _ => .leaf {}
  | .string s => .leaf { text := some s }
  | .array items => .list (ofJsonItems items)
  | .object named => .fields (ofJsonFields named)

/-- The items of a JSON list as documents. -/
def ofJsonItems : List Json → List Document
  | [] => []
  | item :: items => ofJson item :: ofJsonItems items

/-- The fields of a JSON object as fields of a document. -/
def ofJsonFields : List (String × Json) → List (FieldName × Document)
  | [] => []
  | (name, value) :: rest => (.written name, ofJson value) :: ofJsonFields rest

end

mutual

/-- A JSON text as a document. What has no value is unreadable: a number that is too large, a text
with half of a surrogate pair, and what is nested more than `level` deep. -/
def ofWritten (level : Nat) : Json.Written → Document
  | .null => ofJson .null
  | .bool b => ofJson (.bool b)
  | .number text => (text.value?.map ofJson).getD .unreadable
  | .string text => (text.map fun s => ofJson (.string s)).getD .unreadable
  | .array items => if level = 0 then .unreadable else .list (ofWrittenItems (level - 1) items)
  | .object named => if level = 0 then .unreadable else .fields (ofWrittenFields (level - 1) named)

/-- The items of a list as documents. -/
def ofWrittenItems (level : Nat) : List Json.Written → List Document
  | [] => []
  | item :: items => ofWritten level item :: ofWrittenItems level items

/-- The fields of an object as fields of a document. -/
def ofWrittenFields (level : Nat) : List (Option String × Json.Written) → List (FieldName × Document)
  | [] => []
  | (name, value) :: rest =>
    ((name.map .written).getD .nameless, ofWritten level value) :: ofWrittenFields level rest

end

/-- The document of a JSON text. -/
def parseJson (s : String) : Option Document :=
  (Json.Written.parse s).map (ofWritten Json.nestingLimit)

end Document

end StagedAlgebra
