import StagedAlgebra.Binary64

/-!
# Shortest decimals

The decimal that stands for a binary number has the fewest digits among those that are rounded
to the number, and among these it is the nearest. `shortest` finds it by trying one digit, two
digits and so on up to seventeen, which always suffice; on each grid of decimals only the two
neighbours of the number need a test.

## Implementation notes

A decimal is rounded to the number if it lies between the midpoints to the two adjacent numbers;
the midpoints themselves count if the mantissa is even. The lower midpoint is nearer at a power
of two. Everything is measured in quarters of the last bit so that the midpoints are whole.
-/

namespace StagedAlgebra

/-- A decimal `digits * 10 ^ exponent`. -/
structure ScaledDecimal where
  /-- The digits, read as one number. -/
  digits : Nat
  /-- The power of ten. -/
  exponent : Int
deriving DecidableEq

/-- Which of two equally near decimals is taken. -/
inductive TieRule where
  /-- The one whose last digit is even. -/
  | toEven
  /-- The larger one. -/
  | up
deriving DecidableEq

namespace ScaledDecimal

/-- Drops trailing zeros of the digits, at most `steps` of them. -/
def strip (steps : Nat) (d : ScaledDecimal) : ScaledDecimal :=
  match steps with
  | 0 => d
  | steps + 1 =>
    if d.digits ≠ 0 ∧ d.digits % 10 = 0 then strip steps ⟨d.digits / 10, d.exponent + 1⟩ else d

end ScaledDecimal

namespace Binary64

/-- The rational numbers that are rounded to one number, as multiples of `1 / den`. -/
structure Interval where
  /-- The number itself. -/
  value : Nat
  /-- The lower end. -/
  low : Nat
  /-- The upper end. -/
  high : Nat
  /-- The common denominator. -/
  den : Nat
  /-- Whether the ends belong to the interval. -/
  closed : Bool

/-- The interval of the magnitude of a number. -/
def interval (x : Binary64) : Interval :=
  let step := Nat.pow 2 x.scale
  let below := if x.mantissa = leastMantissa ∧ x.scale ≠ 0 then 1 else 2
  { value := 4 * x.mantissa * step
    low := (4 * x.mantissa - below) * step
    high := (4 * x.mantissa + 2) * step
    den := 4 * unit
    closed := x.mantissa % 2 == 0 }

/-- Whether `n / d` lies in an interval. -/
def Interval.holds (i : Interval) (n d : Nat) : Bool :=
  let v := n * i.den
  if i.closed then i.low * d ≤ v && v ≤ i.high * d else i.low * d < v && v < i.high * d

/-- The power of ten of the leading digit of a positive value. -/
def Interval.magnitude (i : Interval) : Int :=
  if i.den ≤ i.value then ((Text.natChars (i.value / i.den)).length : Int) - 1
  else -((Text.natChars ((i.den - 1) / i.value)).length : Int)

/-- The decimal with unit `10 ^ exponent` that lies in an interval, the nearer one of two. -/
def Interval.onGrid (i : Interval) (tie : TieRule) (exponent : Int) : Option Nat :=
  let up := if 0 ≤ exponent then Nat.pow 10 exponent.toNat else 1
  let down := if 0 ≤ exponent then 1 else Nat.pow 10 exponent.natAbs
  let below := i.value * down / (i.den * up)
  let fits := fun n => i.holds (n * up) down
  let twice := 2 * i.value * down
  let middle := (2 * below + 1) * (i.den * up)
  match fits below, fits (below + 1) with
  | false, false => none
  | true, false => some below
  | false, true => some (below + 1)
  | true, true =>
    if twice < middle then some below
    else if middle < twice then some (below + 1)
    else match tie with
      | .up => some (below + 1)
      | .toEven => some (if below % 2 = 0 then below else below + 1)

/-- The first decimal found on the grids from `count` digits on; `left` bounds their number. -/
def Interval.search (i : Interval) (tie : TieRule) (top : Int) (count : Nat) :
    (left : Nat) → Option ScaledDecimal
  | 0 => none
  | left + 1 =>
    let exponent := top - (count : Int) + 1
    match i.onGrid tie exponent with
    | some n => some (ScaledDecimal.strip 20 ⟨n, exponent⟩)
    | none => i.search tie top (count + 1) left

/-- The shortest decimal of the magnitude of a number. -/
def shortest (tie : TieRule) (x : Binary64) : ScaledDecimal :=
  if x.isZero then ⟨0, 0⟩
  else
    let i := x.interval
    (i.search tie i.magnitude 1 17).getD ⟨0, 0⟩

end Binary64

end StagedAlgebra
