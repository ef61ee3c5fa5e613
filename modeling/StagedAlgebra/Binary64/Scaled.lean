import StagedAlgebra.Binary64

/-!
# Numbers from scaled decimals

A decimal `significand * 10 ^ exponent` becomes a binary number in a few rounded steps: the
significand is rounded, and the result is multiplied or divided by a rounded power of ten no
larger than `10 ^ 308`. Smaller decimals are divided by `10 ^ 308` as often as it takes. The
steps round on their own, so the result may be a neighbour of the nearest number.
-/

namespace StagedAlgebra.Binary64

/-- The largest power of ten that is used as one factor. -/
def largestTen : Nat := 308

/-- Divides by `10 ^ power`, in steps of at most `10 ^ 308`; `steps` bounds their number. -/
def shrink (steps : Nat) (x : Binary64) (power : Nat) : Option Binary64 :=
  match steps with
  | 0 => some x
  | steps + 1 =>
    if power ≤ largestTen then (powerOfTen power).bind x.div
    else if x.isZero then some x
    else ((powerOfTen largestTen).bind x.div).bind fun y => shrink steps y (power - largestTen)

/-- Multiplies by `10 ^ power`; too large a factor leaves only zero. -/
def enlarge (x : Binary64) (power : Nat) : Option Binary64 :=
  if power ≤ largestTen then (powerOfTen power).bind x.mul
  else if x.isZero then some x
  else none

/-- The number that `significand * 10 ^ exponent` is read as, if it is not too large. -/
def ofScaled (negative : Bool) (significand : Nat) (exponent : Int) : Option Binary64 :=
  ((nearest false significand 1).bind fun x =>
    if 0 ≤ exponent then enlarge x exponent.toNat
    else shrink (exponent.natAbs / largestTen + 1) x exponent.natAbs).map fun x =>
      if negative then x.neg else x

end StagedAlgebra.Binary64
