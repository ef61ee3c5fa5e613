import StagedAlgebra.Text.Decimal

/-!
# Binary floating-point numbers

The finite numbers of the 64-bit binary format: a sign, a mantissa of at most 53 bits and a power
of two. A number is kept in its one canonical form, so equality of values of the type tells the
two zeros apart and nothing else; `sameNumber` is the comparison that does not.

All arithmetic is exact on natural numbers followed by one rounding, to the nearest number of the
format and at a tie to the one with the even mantissa.

## Implementation notes

The power of two is counted from the smallest one of the format: the value is
`mantissa * 2 ^ scale / 2 ^ 1074`. The format has no infinities and no undefined numbers here,
because no text that is read or written stands for one; an operation whose result is too large
has no result.
-/

namespace StagedAlgebra

/-- The smallest number of 53 bits. -/
def leastMantissa : Nat := 4503599627370496

/-- A mantissa and a scale are canonical if the mantissa has 53 bits, or fewer at scale zero. -/
def CanonicalParts (mantissa scale : Nat) : Prop :=
  mantissa < 2 * leastMantissa ∧ scale ≤ 2045 ∧ (leastMantissa ≤ mantissa ∨ scale = 0)

instance (mantissa scale : Nat) : Decidable (CanonicalParts mantissa scale) := by
  unfold CanonicalParts
  infer_instance

/-- A finite number of the 64-bit binary format. -/
structure Binary64 where
  /-- Whether the sign is minus; zero has a sign too. -/
  negative : Bool
  /-- The significant bits. -/
  mantissa : Nat
  /-- The power of two, counted from the smallest one of the format. -/
  scale : Nat
  /-- The parts are in canonical form. -/
  canonical : CanonicalParts mantissa scale
deriving DecidableEq

/-- The quotient of two natural numbers rounded to the nearest whole one, a half to the even one. -/
def divNearestEven (num den : Nat) : Nat :=
  let q := num / den
  let r := num % den
  if den < 2 * r ∨ (2 * r = den ∧ q % 2 = 1) then q + 1 else q

namespace Binary64

/-- The power of two by which values are scaled to whole numbers. -/
def unit : Nat := Nat.pow 2 1074

/-- Zero with a sign. -/
def zero (negative : Bool) : Binary64 :=
  ⟨negative, 0, 0, by decide⟩

/-- The number nearest to `num / den`, if it is not too large. -/
def nearest (negative : Bool) (num den : Nat) : Option Binary64 :=
  let scaled := num * unit
  let scale := Nat.log2 (scaled / den) - 52
  let rounded := divNearestEven scaled (den * Nat.pow 2 scale)
  let carries := rounded = 2 * leastMantissa
  let mantissa := if carries then leastMantissa else rounded
  let scale := if carries then scale + 1 else scale
  if h : CanonicalParts mantissa scale then some ⟨negative, mantissa, scale, h⟩ else none

/-- The number nearest to an integer, if it is not too large. -/
def ofInt (i : Int) : Option Binary64 :=
  nearest (decide (i < 0)) i.natAbs 1

/-- Whether a number is zero, of either sign. -/
def isZero (x : Binary64) : Bool :=
  x.mantissa == 0

/-- The number with the opposite sign. -/
def neg (x : Binary64) : Binary64 :=
  { x with negative := !x.negative }

/-- Whether two numbers are numerically equal; the two zeros are. -/
def sameNumber (x y : Binary64) : Bool :=
  decide (x = y) || (x.isZero && y.isZero)

/-- The integer that a number is, if it is whole. -/
def toInt? (x : Binary64) : Option Int :=
  let scaled := x.mantissa * Nat.pow 2 x.scale
  if scaled % unit = 0 then
    let n : Int := (scaled / unit : Nat)
    some (if x.negative then -n else n)
  else none

/-- The product of two numbers, rounded. -/
def mul (x y : Binary64) : Option Binary64 :=
  nearest (x.negative != y.negative)
    (x.mantissa * y.mantissa * Nat.pow 2 (x.scale + y.scale)) (unit * unit)

/-- The quotient of two numbers, rounded; the divisor is not zero. -/
def div (x y : Binary64) : Option Binary64 :=
  nearest (x.negative != y.negative) (x.mantissa * Nat.pow 2 x.scale)
    (y.mantissa * Nat.pow 2 y.scale)

/-- The number nearest to a power of ten. -/
def powerOfTen (k : Nat) : Option Binary64 :=
  nearest false (Nat.pow 10 k) 1

end Binary64

end StagedAlgebra
