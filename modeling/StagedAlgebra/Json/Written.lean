import StagedAlgebra.Text.Decimal

/-!
# JSON as it is written

`Written` is a JSON text after its grammar has been checked: one value with blanks around it and
nothing else, and no control characters inside a quoted text. What its numbers and texts stand for
is a further question. A number may be too large, a text may hold half of a surrogate pair, and
lists may be nested too deep; that matters only where a value is wanted.

## Implementation notes

The reader of values recurses on a bound for the number of its steps, which is taken from the
length of the text.
-/

namespace StagedAlgebra.Json

/-- A number as it is written: its sign, the digits before and after the point, and the power of
ten of its exponent. -/
structure NumberText where
  /-- Whether a minus sign is written. -/
  negative : Bool
  /-- The digits before the point. -/
  whole : List Char
  /-- The digits after the point, if there is a point. -/
  fraction : Option (List Char)
  /-- The exponent, if one is written. -/
  exponent : Option Int

/-- A JSON text as it is written. -/
inductive Written where
  /-- The word `null`. -/
  | null
  /-- The word `true` or `false`. -/
  | bool (value : Bool)
  /-- A number. -/
  | number (text : NumberText)
  /-- A quoted text, unless it holds half of a surrogate pair. -/
  | string (text : Option String)
  /-- A list. -/
  | array (items : List Written)
  /-- Named values in the order written. -/
  | object (fields : List (Option String × Written))

/-- The blanks of JSON. -/
def isJsonBlank (c : Char) : Bool :=
  c == ' ' || c == '\n' || c == '\t' || c == '\r'

/-- A text without the blanks at its front. -/
def skipBlanks (cs : List Char) : List Char :=
  cs.dropWhile isJsonBlank

/-- The number that four hexadecimal digits write. -/
def hexNumber? (a b c d : Char) : Option Nat :=
  Text.numeral? 16 [a, b, c, d]

/-- The first half of a pair of surrogates. -/
def isHighSurrogate (n : Nat) : Bool :=
  decide (0xD800 ≤ n) && decide (n < 0xDC00)

/-- The second half of a pair of surrogates. -/
def isLowSurrogate (n : Nat) : Bool :=
  decide (0xDC00 ≤ n) && decide (n < 0xE000)

/-- The character that a pair of surrogates stands for. -/
def surrogatePair (high low : Nat) : Char :=
  Char.ofNat (0x10000 + (high - 0xD800) * 0x400 + (low - 0xDC00))

/-- The character that a letter after a backslash stands for. -/
def unescape? : Char → Option Char
  | '"' => some '"'
  | '\\' => some '\\'
  | '/' => some '/'
  | 'b' => some '\x08'
  | 'f' => some '\x0c'
  | 'n' => some '\n'
  | 'r' => some '\r'
  | 't' => some '\t'
  | _ => none

/-- A quoted text as far as it has been read. -/
structure QuotedStart where
  /-- The characters, last one first. -/
  chars : List Char := []
  /-- The first half of a surrogate pair whose second half must follow. -/
  high : Option Nat := none
  /-- Whether half of a surrogate pair stands alone. -/
  broken : Bool := false

namespace QuotedStart

/-- A quoted text with one more character. -/
def add (q : QuotedStart) (c : Char) : QuotedStart :=
  ⟨c :: q.chars, none, q.broken || q.high.isSome⟩

/-- A quoted text with one more unit, which is a character or half of a surrogate pair. -/
def addUnit (q : QuotedStart) (n : Nat) : QuotedStart :=
  match q.high with
  | some high =>
    if isLowSurrogate n then ⟨surrogatePair high n :: q.chars, none, q.broken⟩
    else { q with high := none, broken := true }
  | none =>
    if isHighSurrogate n then { q with high := some n }
    else if isLowSurrogate n then { q with broken := true }
    else q.add (Char.ofNat n)

/-- The text, unless half of a surrogate pair stands alone. -/
def text? (q : QuotedStart) : Option String :=
  if q.broken || q.high.isSome then none else some (String.ofList q.chars.reverse)

end QuotedStart

/-- Reads a quoted text to its closing quote, and gives the rest. -/
def readQuoted (q : QuotedStart) : List Char → Option (Option String × List Char)
  | [] => none
  | '"' :: rest => some (q.text?, rest)
  | '\\' :: 'u' :: a :: b :: c :: d :: rest =>
    match hexNumber? a b c d with
    | some n => readQuoted (q.addUnit n) rest
    | none => none
  | '\\' :: c :: rest =>
    match unescape? c with
    | some e => readQuoted (q.add e) rest
    | none => none
  | c :: rest => if c.toNat < 0x20 then none else readQuoted (q.add c) rest

/-- The digits at the front of a text, and the rest. -/
def spanDigits (cs : List Char) : List Char × List Char :=
  cs.span Text.isDigit

/-- The fraction at the front of a text, if a point is there; a point needs a digit after it. -/
def readFraction (cs : List Char) : Option (Option (List Char) × List Char) :=
  match cs with
  | '.' :: rest =>
    let (digits, rest) := spanDigits rest
    if digits.isEmpty then none else some (some digits, rest)
  | _ => some (none, cs)

/-- The digits of an exponent at the front of a text. -/
def readExponentDigits (negative : Bool) (cs : List Char) : Option (Option Int × List Char) :=
  let (digits, rest) := spanDigits cs
  (Text.numeral? 10 digits).map fun n =>
    (some (if negative then -(n : Int) else (n : Int)), rest)

/-- The exponent at the front of a text, if its letter is there. -/
def readExponent (cs : List Char) : Option (Option Int × List Char) :=
  match cs with
  | [] => some (none, [])
  | c :: rest =>
    if c = 'e' ∨ c = 'E' then
      match rest with
      | '+' :: rest => readExponentDigits false rest
      | '-' :: rest => readExponentDigits true rest
      | _ => readExponentDigits false rest
    else some (none, cs)

/-- An unsigned number at the front of a text; a zero in front stands alone. -/
def readUnsigned (negative : Bool) (cs : List Char) : Option (NumberText × List Char) :=
  let (whole, rest) := spanDigits cs
  match whole with
  | [] => none
  | '0' :: _ :: _ => none
  | _ =>
    match readFraction rest with
    | none => none
    | some (fraction, rest) =>
      match readExponent rest with
      | none => none
      | some (exponent, rest) => some (⟨negative, whole, fraction, exponent⟩, rest)

/-- A number at the front of a text. -/
def readNumber (cs : List Char) : Option (NumberText × List Char) :=
  match cs with
  | '-' :: rest => readUnsigned true rest
  | _ => readUnsigned false cs

mutual

/-- A value at the front of a text, and the rest. -/
def readValue (steps : Nat) (cs : List Char) : Option (Written × List Char) :=
  match steps with
  | 0 => none
  | steps + 1 =>
    match skipBlanks cs with
    | [] => none
    | 'n' :: 'u' :: 'l' :: 'l' :: rest => some (.null, rest)
    | 't' :: 'r' :: 'u' :: 'e' :: rest => some (.bool true, rest)
    | 'f' :: 'a' :: 'l' :: 's' :: 'e' :: rest => some (.bool false, rest)
    | '"' :: rest => (readQuoted {} rest).map fun (text, rest) => (.string text, rest)
    | '[' :: rest =>
      match skipBlanks rest with
      | ']' :: rest => some (.array [], rest)
      | rest => (readItems steps rest).map fun (items, rest) => (.array items, rest)
    | '\x7b' :: rest =>
      match skipBlanks rest with
      | '\x7d' :: rest => some (.object [], rest)
      | rest => (readFields steps rest).map fun (fields, rest) => (.object fields, rest)
    | cs => (readNumber cs).map fun (text, rest) => (.number text, rest)

/-- The items of a list up to its closing bracket, at least one, and the rest. -/
def readItems (steps : Nat) (cs : List Char) : Option (List Written × List Char) :=
  match steps with
  | 0 => none
  | steps + 1 =>
    match readValue steps cs with
    | none => none
    | some (item, rest) =>
      match skipBlanks rest with
      | ']' :: rest => some ([item], rest)
      | ',' :: rest => (readItems steps rest).map fun (items, rest) => (item :: items, rest)
      | _ => none

/-- The fields of an object up to its closing brace, at least one, and the rest. -/
def readFields (steps : Nat) (cs : List Char) :
    Option (List (Option String × Written) × List Char) :=
  match steps with
  | 0 => none
  | steps + 1 =>
    match skipBlanks cs with
    | '"' :: rest =>
      match readQuoted {} rest with
      | none => none
      | some (name, rest) =>
        match skipBlanks rest with
        | ':' :: rest =>
          match readValue steps rest with
          | none => none
          | some (value, rest) =>
            match skipBlanks rest with
            | '\x7d' :: rest => some ([(name, value)], rest)
            | ',' :: rest =>
              (readFields steps rest).map fun (fields, rest) => ((name, value) :: fields, rest)
            | _ => none
        | _ => none
    | _ => none

end

/-- The one value that a text writes. -/
def Written.parse (s : String) : Option Written :=
  let cs := s.toList
  match readValue (2 * cs.length + 2) cs with
  | none => none
  | some (value, rest) => if (skipBlanks rest).isEmpty then some value else none

end StagedAlgebra.Json
