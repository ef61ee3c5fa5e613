/-!
# Integers in decimal text

Whole numbers written with decimal digits. `int64?` reads a signed 64-bit number, `word64?` an
unsigned one; both allow one sign and any number of leading zeros, and refuse everything else,
blanks included.
-/

namespace StagedAlgebra.Text

/-- The value of a decimal digit. -/
def digit? (c : Char) : Option Nat :=
  if '0' ≤ c ∧ c ≤ '9' then some (c.toNat - '0'.toNat) else none

/-- Whether a character is a decimal digit. -/
def isDigit (c : Char) : Bool :=
  decide ('0' ≤ c) && decide (c ≤ '9')

/-- The value of a digit in a base up to sixteen, either case of letter. -/
def baseDigit? (base : Nat) (c : Char) : Option Nat :=
  let value :=
    if '0' ≤ c ∧ c ≤ '9' then c.toNat - '0'.toNat
    else if 'a' ≤ c ∧ c ≤ 'f' then c.toNat - 'a'.toNat + 10
    else if 'A' ≤ c ∧ c ≤ 'F' then c.toNat - 'A'.toNat + 10
    else base
  if value < base then some value else none

/-- The number that a list of digits writes in a base, continuing from `start`. -/
def numeralFrom (base start : Nat) : List Char → Option Nat
  | [] => some start
  | c :: rest =>
    match baseDigit? base c with
    | some d => numeralFrom base (start * base + d) rest
    | none => none

/-- The number that a non-empty list of digits writes in a base. -/
def numeral? (base : Nat) (cs : List Char) : Option Nat :=
  if cs.isEmpty then none else numeralFrom base 0 cs

/-- The number of words of 64 bits. -/
def wordCount : Nat := 18446744073709551616

/-- Half the number of words of 64 bits: what is below it in magnitude has both signs. -/
def signedLimit : Nat := 9223372036854775808

/-- The integers of 64-bit two's complement. -/
def inInt64 (i : Int) : Bool :=
  decide (-(signedLimit : Int) ≤ i) && decide (i < (signedLimit : Int))

/-- The 64-bit word that digits write in a base, one plus sign allowed in front. -/
def wordIn? (base : Nat) (cs : List Char) : Option Nat :=
  let digits := match cs with
    | '+' :: rest => rest
    | _ => cs
  match numeral? base digits with
  | some n => if n < wordCount then some n else none
  | none => none

/-- The 64-bit integer that digits write in a base, one sign allowed in front. -/
def intIn? (base : Nat) (cs : List Char) : Option Int :=
  let value : Option Int := match cs with
    | '-' :: rest => (numeral? base rest).map fun n => -(n : Int)
    | '+' :: rest => (numeral? base rest).map fun n => (n : Int)
    | _ => (numeral? base cs).map fun n => (n : Int)
  match value with
  | some i => if inInt64 i then some i else none
  | none => none

/-- The unsigned 64-bit number that a text writes in decimal. -/
def word64? (s : String) : Option Nat :=
  wordIn? 10 s.toList

/-- The signed 64-bit number that a text writes in decimal. -/
def int64? (s : String) : Option Int :=
  intIn? 10 s.toList

/-- The decimal digits of a natural number. -/
def natChars (n : Nat) : List Char :=
  Nat.toDigits 10 n

/-- The decimal text of an integer: its digits, after a minus sign if it is negative. -/
def intChars (i : Int) : List Char :=
  if i < 0 then '-' :: natChars i.natAbs else natChars i.natAbs

/-- A text padded on the left with `fill` to a least number of characters. -/
def padLeft (fill : Char) (width : Nat) (cs : List Char) : List Char :=
  List.replicate (width - cs.length) fill ++ cs

/-- A text padded on the right with `fill` to a least number of characters. -/
def padRight (fill : Char) (width : Nat) (cs : List Char) : List Char :=
  cs ++ List.replicate (width - cs.length) fill

end StagedAlgebra.Text
