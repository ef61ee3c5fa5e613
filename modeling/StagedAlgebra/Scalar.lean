import StagedAlgebra.Condition
import StagedAlgebra.Json.Reader
import StagedAlgebra.Text.Blank

/-!
# Scalars

The values of attributes: absent, a truth value, an integer, a binary number or a text.

Scalars are compared in three ways. `matchesLiteral` follows the literal: a text literal compares
the text of the scalar, an integer literal its number, and a text that writes an integer counts
as a number there. `looselyEqual` compares two attributes and puts integers and binary numbers on
one line, after rounding the integer. `keyForm?` is the value by which records are brought
together in a join: a whole binary number takes the form of its integer. An absent value equals
nothing.
-/

namespace StagedAlgebra

/-- The value of an attribute. -/
inductive Scalar where
  /-- The absent value. -/
  | null
  /-- A truth value. -/
  | bool (value : Bool)
  /-- A signed 64-bit integer. -/
  | int (value : Int64)
  /-- A binary number. -/
  | float (value : Binary64)
  /-- A text. -/
  | text (value : String)
deriving DecidableEq

namespace Scalar

/-- The name of the kind of a scalar. -/
def kindName : Scalar → String
  | .null => "null"
  | .bool _ => "bool"
  | .int _ => "int"
  | .float _ => "float"
  | .text _ => "str"

/-- The text of a scalar. -/
def shown : Scalar → String
  | .null => "null"
  | .bool true => "true"
  | .bool false => "false"
  | .int i => String.ofList (Text.intChars i.toInt)
  | .float x => String.ofList (NumberLayout.plain.chars x)
  | .text s => s

/-- The scalar of a literal. -/
def ofLiteral : Literal → Scalar
  | .text s => .text s
  | .int i => .int i

/-- Whether an integer, rounded, is a binary number. -/
def intIsFloat (i : Int64) (x : Binary64) : Bool :=
  (Binary64.ofInt i.toInt).any fun y => y.sameNumber x

/-- Equality with a literal, by the text or by the number of the scalar. -/
def matchesLiteral : Scalar → Literal → Bool
  | .null, _ => false
  | .text s, .text t => decide (s = t)
  | scalar, .text t => decide (scalar.shown = t)
  | .bool _, .int _ => false
  | .int i, .int n => decide (i = n)
  | .float x, .int n => intIsFloat n x
  | .text s, .int n => decide (Text.int64? (Text.trim s) = some n.toInt)

/-- Equality of two attributes. -/
def looselyEqual : Scalar → Scalar → Bool
  | .bool a, .bool b => decide (a = b)
  | .int a, .int b => decide (a = b)
  | .int a, .float x => intIsFloat a x
  | .float x, .int a => intIsFloat a x
  | .float x, .float y => x.sameNumber y
  | .text a, .text b => decide (a = b)
  | _, _ => false

/-- The integer of 64 bits that a binary number is. -/
def wholeFloat? (x : Binary64) : Option Int64 :=
  match x.toInt? with
  | some i => if Text.inInt64 i then some (Int64.ofInt i) else none
  | none => none

/-- The form of a scalar by which records are joined. -/
def keyForm? : Scalar → Option Scalar
  | .null => none
  | .float x =>
    match wholeFloat? x with
    | some i => some (.int i)
    | none => some (.float x)
  | scalar => some scalar

/-- Equality of scalars of one kind; numbers are compared as numbers. -/
def sameValue : Scalar → Scalar → Bool
  | .float x, .float y => x.sameNumber y
  | a, b => decide (a = b)

/-- The JSON form of a scalar. -/
def toJson : Scalar → Json
  | .null => .null
  | .bool b => .bool b
  | .int i => .int i.toInt
  | .float x => .float x
  | .text s => .string s

/-- The scalar that a JSON value is; an integer beyond 64 signed bits is a binary number. -/
def ofJson? : Json → Option Scalar
  | .null => some .null
  | .bool b => some (.bool b)
  | .int i =>
    if Text.inInt64 i then some (.int (Int64.ofInt i)) else (Binary64.ofInt i).map .float
  | .float x => some (.float x)
  | .string s => some (.text s)
  | .array _ | .object _ => none

end Scalar

end StagedAlgebra
