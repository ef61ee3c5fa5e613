import StagedAlgebra.Table

/-!
# Fail points

A fail point is a named place at which a run can be made to fail. Each failure that is asked for
happens once: a hit uses one up.
-/

namespace StagedAlgebra

/-- How many failures are still to happen at each named place. -/
structure FailPoints where
  /-- The failures left. -/
  left : Table Nat := .empty
deriving DecidableEq

namespace FailPoints

/-- Asks for a number of failures at a place, whatever was asked for there before. -/
def arm (p : FailPoints) (name : String) (times : Nat) : FailPoints :=
  ⟨p.left.insert name times⟩

/-- Takes back what was asked for at a place. -/
def disarm (p : FailPoints) (name : String) : FailPoints :=
  ⟨p.left.erase name⟩

/-- Whether a place fails when a run comes to it, and what is left afterwards. -/
def hit (p : FailPoints) (name : String) : Bool × FailPoints :=
  match p.left.get? name with
  | some (left + 1) => (true, p.arm name left)
  | _ => (false, p)

end FailPoints

end StagedAlgebra
