import StagedAlgebra.Record.Lookup
import StagedAlgebra.Plan

/-!
# Joins by key

A join brings records of two sides together by the values of the attributes that its condition
equates. Each record is filed under the list of these values in their joining form; in every file
the records of the left are paired with those of the right, repeated tuples of a side once.

A record does not say which attribute of an equality is its own, so the first one that it has is
taken. A record with an absent value among them pairs with nothing.
-/

namespace StagedAlgebra

/-- A join of two labels on pairs of attributes. -/
structure KeyJoin where
  /-- The label of the left records. -/
  leftLabel : String
  /-- The label of the right records. -/
  rightLabel : String
  /-- The attributes that are equated. -/
  pairs : List (Attribute × Attribute)
deriving DecidableEq

/-- The attributes that a conjunct equates. -/
def Condition.attributePair (c : Condition) : Except OperatorFault (Attribute × Attribute) :=
  match c.attributePair? with
  | some pair => .ok pair
  | none => .error (.notAttributePair c)

/-- The first records with each tuple; `seen` holds the texts of tuples already met. -/
def dropRepeated (seen : List String) : List Record → List Record
  | [] => []
  | r :: rest =>
    let text := Tuple.text r.tuple
    if seen.contains text then dropRepeated seen rest else r :: dropRepeated (text :: seen) rest

namespace KeyJoin

/-- The join by a condition that equates attributes. -/
def ofCondition (c : Condition) (leftLabel rightLabel : String) : Except OperatorFault KeyJoin :=
  (c.conjuncts.mapM Condition.attributePair).map fun pairs => ⟨leftLabel, rightLabel, pairs⟩

/-- The label of the records that the join makes. -/
def label (j : KeyJoin) : String :=
  Plan.pairLabel j.leftLabel j.rightLabel

/-- The value of an attribute in a record; a reference that names its relation is taken by its
key alone. -/
def sideValue? (r : Record) (a : Attribute) : Option Scalar :=
  match a.qualifiedKey? with
  | some key => r.tuple.get? key
  | none => (r.lookup? a).map (·.2)

/-- The value that a record has for a pair of equated attributes. -/
def pairValue (r : Record) (pair : Attribute × Attribute) : Except OperatorFault Scalar :=
  match (sideValue? r pair.1).or (sideValue? r pair.2) with
  | some value => .ok value
  | none => .error (.unresolved (pair.1.text ++ " / " ++ pair.2.text) r.label)

/-- The values by which a record is filed. -/
def keyValues (j : KeyJoin) (r : Record) : Except OperatorFault (List Scalar) :=
  j.pairs.mapM (pairValue r)

/-- The text under which joining values are filed. -/
def keyText (values : List Scalar) : String :=
  (Json.array (values.map Scalar.toJson)).compact

/-- A record with the key under which it is filed, unless a value is absent. -/
def file (j : KeyJoin) (r : Record) : Except OperatorFault (List (String × Record)) :=
  (j.keyValues r).map fun values =>
    match values.mapM Scalar.keyForm? with
    | some forms => [(keyText forms, r)]
    | none => []

/-- The records of the left and of the right. -/
def sides (j : KeyJoin) (key : String) :
    List Record → Except OperatorFault (List Record × List Record)
  | [] => .ok ([], [])
  | r :: rest =>
    if r.label = j.leftLabel then
      (j.sides key rest).map fun (left, right) => (r :: left, right)
    else if r.label = j.rightLabel then
      (j.sides key rest).map fun (left, right) => (left, r :: right)
    else .error (.strangeLabel key r.label j.leftLabel j.rightLabel)

/-- Two records as one; where both have a key, the right one counts. -/
def merge (j : KeyJoin) (left right : Record) : Record :=
  ⟨j.label, left.tuple.union right.tuple⟩

/-- Every pair of the records filed under one key. -/
def pair (j : KeyJoin) (key : String) (records : List Record) :
    Except OperatorFault (List Record) :=
  (j.sides key records).map fun (left, right) =>
    (dropRepeated [] left).flatMap fun l => (dropRepeated [] right).map fun r => j.merge l r

/-- The JSON form of a join. -/
def toJson (j : KeyJoin) : Json :=
  .object [("left_label", .string j.leftLabel), ("right_label", .string j.rightLabel),
    ("on", .array (j.pairs.map fun (a, b) => Json.strings [a.text, b.text]))]

end KeyJoin

end StagedAlgebra
