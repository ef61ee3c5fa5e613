import StagedAlgebra.Json
import StagedAlgebra.Json.Written
import StagedAlgebra.Binary64.Scaled

/-!
# Reading JSON

`Json.parse` reads a JSON text strictly: besides its grammar, no quoted text holds half of a
surrogate pair, no number is too large, and lists and objects are nested no deeper than a limit.

A number without point and exponent is an integer if it fits 64 bits, signed or unsigned. Every
other number, and negative zero, is a binary number: as many leading digits as fit 64 bits are
kept, and their number is scaled by the power of ten that remains (`Binary64.ofScaled`).
-/

namespace StagedAlgebra.Json

/-- Appends digits to a number as long as it fits a 64-bit word; the second part counts the
digits left out. -/
def absorb (n : Nat) : List Char → Nat × Nat
  | [] => (n, 0)
  | c :: rest =>
    let next := n * 10 + (c.toNat - '0'.toNat)
    if next < Text.wordCount then absorb next rest else (n, rest.length + 1)

/-- The binary number that a number text is read as. -/
def NumberText.float? (t : NumberText) : Option Binary64 :=
  let (n, leftOut) := absorb 0 t.whole
  let fraction := t.fraction.getD []
  let (n, unused) := absorb n fraction
  let exponent : Int := (leftOut : Int) - ((fraction.length - unused : Nat) : Int)
  Binary64.ofScaled t.negative n (exponent + t.exponent.getD 0)

/-- The integer that a number text writes, if it writes one and it fits 64 bits. -/
def NumberText.int? (t : NumberText) : Option Int :=
  match t.fraction, t.exponent with
  | none, none =>
    match Text.numeral? 10 t.whole with
    | none => none
    | some n =>
      if t.negative then
        if n ≠ 0 ∧ n ≤ Text.signedLimit then some (-(n : Int)) else none
      else if n < Text.wordCount then some (n : Int)
      else none
  | _, _ => none

/-- The value of a number text. -/
def NumberText.value? (t : NumberText) : Option Json :=
  match t.int? with
  | some i => some (.int i)
  | none => t.float?.map .float

mutual

/-- The value that is written, if its lists and objects nest at most `level` deep. -/
def Written.value? (level : Nat) : Written → Option Json
  | .null => some .null
  | .bool b => some (.bool b)
  | .number text => text.value?
  | .string text => text.map .string
  | .array items => if level = 0 then none else (valuesOf? (level - 1) items).map .array
  | .object fields => if level = 0 then none else (fieldsOf? (level - 1) fields).map .object

/-- The values that are written as items. -/
def Written.valuesOf? (level : Nat) : List Written → Option (List Json)
  | [] => some []
  | item :: items =>
    match item.value? level with
    | none => none
    | some value => (valuesOf? level items).map (value :: ·)

/-- The fields that are written. -/
def Written.fieldsOf? (level : Nat) : List (Option String × Written) → Option (List (String × Json))
  | [] => some []
  | (name, field) :: fields =>
    match name, field.value? level with
    | some name, some value => (fieldsOf? level fields).map ((name, value) :: ·)
    | _, _ => none

end

/-- The number of nested lists and objects that a text may have. -/
def nestingLimit : Nat := 127

/-- The value of a text whose lists and objects nest at most `limit` deep. -/
def parseWithin (limit : Nat) (s : String) : Option Json :=
  (Written.parse s).bind (Written.value? limit)

/-- The value of a text within the nesting limit. -/
def parse (s : String) : Option Json :=
  parseWithin nestingLimit s

end StagedAlgebra.Json
