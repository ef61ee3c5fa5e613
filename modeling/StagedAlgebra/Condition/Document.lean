import StagedAlgebra.Condition
import StagedAlgebra.Document

/-!
# Conditions in documents

A condition is written as a choice: `attr` with the text of a reference, `literal` with the choice
of `str` or `int`, or `binary` with its operator and its two sides.

## Implementation notes

Reading recurses on a budget for nested structures: every `binary` spends one.
-/

namespace StagedAlgebra

/-- The JSON form of a literal. -/
def Literal.toJson : Literal → Json
  | .text s => .object [("str", .string s)]
  | .int i => .object [("int", .int i.toInt)]

/-- The literal that a document writes. -/
def Literal.ofDocument? (doc : Document) : Option Literal :=
  match doc.choice? ["str", "int"] with
  | some ("str", some body) => body.text?.map .text
  | some ("int", some body) => body.int64?.map .int
  | _ => none

namespace Condition

/-- The JSON form of an operator with its two sides. -/
def binaryJson (op : String) (left right : Json) : Json :=
  .object [("binary", .object [("op", .string op), ("left", left), ("right", right)])]

/-- The JSON form of a condition. -/
def toJson : Condition → Json
  | .attr a => .object [("attr", .string a.text)]
  | .literal l => .object [("literal", l.toJson)]
  | .equal left right => binaryJson "eq" left.toJson right.toJson
  | .both left right => binaryJson "and" left.toJson right.toJson

/-- The condition that an operator makes of two sides. -/
def ofOperator? (op : String) (left right : Condition) : Option Condition :=
  match op with
  | "eq" => some (.equal left right)
  | "and" => some (.both left right)
  | _ => none

/-- The condition that a document writes, with at most `budget` nested structures. -/
def ofDocument? (leniency : Leniency) (budget : Nat) (doc : Document) : Option Condition :=
  match doc.choice? ["attr", "literal", "binary"] with
  | some ("attr", some body) => (body.text?.bind Attribute.parse?).map .attr
  | some ("literal", some body) => (Literal.ofDocument? body).map .literal
  | some ("binary", some body) =>
    match budget with
    | 0 => none
    | budget + 1 =>
      match body.structure? leniency.listBodies ["op", "left", "right"] with
      | some [some op, some left, some right] =>
        match op.unit? leniency ["eq", "and"], ofDocument? leniency budget left,
            ofDocument? leniency budget right with
        | some op, some left, some right => ofOperator? op left right
        | _, _, _ => none
      | _ => none
  | _ => none

end Condition

end StagedAlgebra
