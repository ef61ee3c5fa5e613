import StagedAlgebra.Binary64.Shortest

/-!
# How numbers are laid out

A shortest decimal is written positionally, or with one digit before the point and an exponent.
A `NumberLayout` says which, and how; `exchange` is the layout of data files and `plain` the one
of messages and of comparisons with text.
-/

namespace StagedAlgebra

/-- The decisions on how a binary number is written. -/
structure NumberLayout where
  /-- The exponents of the leading digit that are written positionally. -/
  positional : Int → Bool
  /-- Whether a whole number written positionally ends in a point and a zero. -/
  pointZero : Bool
  /-- Which of two equally near decimals is written. -/
  tie : TieRule

namespace NumberLayout

/-- Data files: positional from `10 ^ -5` up to below `10 ^ 16`, and always with a point there. -/
def exchange : NumberLayout where
  positional e := decide (-5 ≤ e) && decide (e < 16)
  pointZero := true
  tie := .toEven

/-- Messages: always positional, and no point in a whole number. -/
def plain : NumberLayout where
  positional _ := true
  pointZero := false
  tie := .up

/-- The digits of a decimal around its point. -/
def positionalChars (pointZero : Bool) (d : ScaledDecimal) : List Char :=
  let digits := Text.natChars d.digits
  if 0 ≤ d.exponent then
    digits ++ List.replicate (if d.digits = 0 then 0 else d.exponent.toNat) '0'
      ++ (if pointZero then ['.', '0'] else [])
  else
    let places := d.exponent.natAbs
    let padded := Text.padLeft '0' (places + 1) digits
    let whole := padded.length - places
    padded.take whole ++ '.' :: padded.drop whole

/-- The digits of a decimal with one digit before the point, and the exponent with its sign. -/
def exponentChars (d : ScaledDecimal) : List Char :=
  let digits := Text.natChars d.digits
  let exponent := d.exponent + (digits.length : Int) - 1
  let sign := if exponent < 0 then '-' else '+'
  let body := match digits with
    | [] => []
    | first :: [] => [first]
    | first :: rest => first :: '.' :: rest
  body ++ 'e' :: sign :: Text.natChars exponent.natAbs

/-- The text of a number. -/
def chars (layout : NumberLayout) (x : Binary64) : List Char :=
  let d := x.shortest layout.tie
  let leading := d.exponent + ((Text.natChars d.digits).length : Int) - 1
  let body :=
    if layout.positional leading then positionalChars layout.pointZero d else exponentChars d
  if x.negative then '-' :: body else body

end NumberLayout

end StagedAlgebra
