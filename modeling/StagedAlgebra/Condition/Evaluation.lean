import StagedAlgebra.Record.Lookup

/-!
# Evaluating conditions

A condition holds in a record, does not hold, or cannot be evaluated. A conjunction is evaluated
from left to right and no further than it takes: what comes after a part that does not hold is
not looked at.
-/

namespace StagedAlgebra.Condition

/-- Whether two operands are equal in a record. -/
def equalIn (r : Record) : Condition → Condition → Except OperatorFault Bool
  | .attr a, .literal l => (r.lookup a).map fun e => e.2.matchesLiteral l
  | .literal l, .attr a => (r.lookup a).map fun e => e.2.matchesLiteral l
  | .attr a, .attr b =>
    match r.lookup a with
    | .error fault => .error fault
    | .ok e => (r.lookup b).map fun f => e.2.looselyEqual f.2
  | .literal a, .literal b => .ok ((Scalar.ofLiteral a).matchesLiteral b)
  | left, right => .error (.notOperands left right)

/-- Whether a condition holds in a record. -/
def holdsIn (r : Record) : Condition → Except OperatorFault Bool
  | .both left right =>
    match left.holdsIn r with
    | .ok true => right.holdsIn r
    | other => other
  | .equal left right => equalIn r left right
  | c => .error (.notPredicate c)

end StagedAlgebra.Condition
