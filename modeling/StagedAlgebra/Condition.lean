import StagedAlgebra.Attribute
import StagedAlgebra.Text.Decimal

/-!
# Conditions

A condition is built from attributes and literals by equality and conjunction. Nothing keeps an
attribute or a literal from standing where a truth value is wanted; what such a condition means
is decided when it is evaluated.

`conjuncts` flattens a condition into the parts that conjunction joins, from left to right, and
`conjunction` joins parts again, the first two first.
-/

namespace StagedAlgebra

/-- A constant in a condition. -/
inductive Literal where
  /-- A text. -/
  | text (value : String)
  /-- A signed 64-bit integer. -/
  | int (value : Int64)
deriving DecidableEq

/-- The text of a literal: texts stand between quotes. -/
def Literal.shown : Literal → String
  | .text s => "'" ++ s ++ "'"
  | .int i => String.ofList (Text.intChars i.toInt)

/-- A condition on records. -/
inductive Condition where
  /-- The value of an attribute. -/
  | attr (reference : Attribute)
  /-- A constant. -/
  | literal (value : Literal)
  /-- Two values are equal. -/
  | equal (left right : Condition)
  /-- Two conditions hold together. -/
  | both (left right : Condition)
deriving DecidableEq

namespace Condition

/-- The text of a condition. -/
def text : Condition → String
  | .attr a => a.text
  | .literal l => l.shown
  | .equal left right => left.text ++ " = " ++ right.text
  | .both left right => "(" ++ left.text ++ ") and (" ++ right.text ++ ")"

/-- Whether a condition is an attribute or a literal. -/
def isOperand : Condition → Bool
  | .attr _ | .literal _ => true
  | _ => false

/-- Whether a condition equates two operands. -/
def isAtomic : Condition → Bool
  | .equal left right => left.isOperand && right.isOperand
  | _ => false

/-- The two operands that a condition equates. -/
def equality? (c : Condition) : Option (Condition × Condition) :=
  match c with
  | .equal left right => if c.isAtomic then some (left, right) else none
  | _ => none

/-- The two attributes that a condition equates. -/
def attributePair? : Condition → Option (Attribute × Attribute)
  | .equal (.attr a) (.attr b) => some (a, b)
  | _ => none

/-- The parts that conjunction joins, from left to right. -/
def conjuncts : Condition → List Condition
  | .both left right => left.conjuncts ++ right.conjuncts
  | c => [c]

@[simp] theorem conjuncts_both (left right : Condition) :
    (both left right).conjuncts = left.conjuncts ++ right.conjuncts := rfl

/-- A condition has at least one conjunct. -/
theorem conjuncts_ne_nil (c : Condition) : c.conjuncts ≠ [] := by
  induction c with
  | attr _ => simp [conjuncts]
  | literal _ => simp [conjuncts]
  | equal _ _ _ _ => simp [conjuncts]
  | both left right ihl _ => simp [ihl]

/-- The conjuncts of conditions joined from the left are theirs, in order. -/
theorem conjuncts_foldl_both (c : Condition) (cs : List Condition) :
    (cs.foldl both c).conjuncts = c.conjuncts ++ cs.flatMap conjuncts := by
  induction cs generalizing c with
  | nil => simp
  | cons d rest ih => simp [ih]

/-- The conjunction of a list of conditions, joined from the left. -/
def conjunction : List Condition → Option Condition
  | [] => none
  | c :: cs => some (cs.foldl .both c)

/-- Joining conditions keeps their conjuncts. -/
theorem conjuncts_of_conjunction {cs : List Condition} {c : Condition}
    (h : conjunction cs = some c) : c.conjuncts = cs.flatMap conjuncts := by
  cases cs with
  | nil => simp [conjunction] at h
  | cons d rest =>
    simp only [conjunction, Option.some.injEq] at h
    simp [← h, conjuncts_foldl_both]

/-- The attributes of a condition, from left to right. -/
def attributes : Condition → List Attribute
  | .attr a => [a]
  | .literal _ => []
  | .equal left right | .both left right => left.attributes ++ right.attributes

end Condition

end StagedAlgebra
