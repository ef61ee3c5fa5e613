import StagedAlgebra.Binary64.Layout

/-!
# JSON values

A `Json` value is what a JSON text says. Integers are kept apart from the other numbers, because
the two are different kinds of data here, and the fields of an object are kept in the order in
which they are written.

`compact` writes a value without any blanks, `pretty` with one field or item a line and two
spaces of indentation a level. Both write before a given rest of text, so that a value is
written in time linear in its size and reading back can be stated for any rest.
-/

namespace StagedAlgebra

/-- A JSON value. -/
inductive Json where
  /-- The value `null`. -/
  | null
  /-- A truth value. -/
  | bool (value : Bool)
  /-- A number that is written as an integer. -/
  | int (value : Int)
  /-- Any other number. -/
  | float (value : Binary64)
  /-- A text. -/
  | string (value : String)
  /-- A list of values. -/
  | array (items : List Json)
  /-- Named values, in the order written. -/
  | object (fields : List (String × Json))

namespace Json

/-- The lower-case hexadecimal digit of a number below sixteen. -/
def hexDigit (n : Nat) : Char :=
  if n < 10 then Char.ofNat (n + '0'.toNat) else Char.ofNat (n - 10 + 'a'.toNat)

/-- A character inside a quoted text: quotes, backslashes and control characters are escaped. -/
def escape (c : Char) : List Char :=
  if c = '"' then ['\\', '"']
  else if c = '\\' then ['\\', '\\']
  else if c = '\x08' then ['\\', 'b']
  else if c = '\x0c' then ['\\', 'f']
  else if c = '\n' then ['\\', 'n']
  else if c = '\r' then ['\\', 'r']
  else if c = '\t' then ['\\', 't']
  else if c.toNat < 0x20 then
    ['\\', 'u', '0', '0', hexDigit (c.toNat / 16), hexDigit (c.toNat % 16)]
  else [c]

/-- The characters of a quoted text and its closing quote, before `rest`. -/
def quoteChars (rest : List Char) : List Char → List Char
  | [] => '"' :: rest
  | c :: cs => escape c ++ quoteChars rest cs

/-- A quoted text before `rest`. -/
def quote (s : String) (rest : List Char) : List Char :=
  '"' :: quoteChars rest s.toList

mutual

/-- A value without blanks, before `rest`. -/
def write (rest : List Char) : Json → List Char
  | .null => 'n' :: 'u' :: 'l' :: 'l' :: rest
  | .bool true => 't' :: 'r' :: 'u' :: 'e' :: rest
  | .bool false => 'f' :: 'a' :: 'l' :: 's' :: 'e' :: rest
  | .int i => Text.intChars i ++ rest
  | .float x => NumberLayout.exchange.chars x ++ rest
  | .string s => quote s rest
  | .array [] => '[' :: ']' :: rest
  | .array (item :: items) => '[' :: write (writeItems rest items) item
  | .object [] => '\x7b' :: '\x7d' :: rest
  | .object ((name, value) :: fields) =>
    '\x7b' :: quote name (':' :: write (writeFields rest fields) value)

/-- The items after the first one of a list and its closing bracket, before `rest`. -/
def writeItems (rest : List Char) : List Json → List Char
  | [] => ']' :: rest
  | item :: items => ',' :: write (writeItems rest items) item

/-- The fields after the first one of an object and its closing brace, before `rest`. -/
def writeFields (rest : List Char) : List (String × Json) → List Char
  | [] => '\x7d' :: rest
  | (name, value) :: fields => ',' :: quote name (':' :: write (writeFields rest fields) value)

end

/-- A new line indented by two spaces a level, before `rest`. -/
def newLine (level : Nat) (rest : List Char) : List Char :=
  '\n' :: (List.replicate (2 * level) ' ' ++ rest)

mutual

/-- A value with one item or field a line, before `rest`. -/
def writePretty (level : Nat) (rest : List Char) : Json → List Char
  | .null => 'n' :: 'u' :: 'l' :: 'l' :: rest
  | .bool true => 't' :: 'r' :: 'u' :: 'e' :: rest
  | .bool false => 'f' :: 'a' :: 'l' :: 's' :: 'e' :: rest
  | .int i => Text.intChars i ++ rest
  | .float x => NumberLayout.exchange.chars x ++ rest
  | .string s => quote s rest
  | .array [] => '[' :: ']' :: rest
  | .array (item :: items) =>
    '[' :: newLine (level + 1) (writePretty (level + 1) (writePrettyItems level rest items) item)
  | .object [] => '\x7b' :: '\x7d' :: rest
  | .object ((name, value) :: fields) =>
    '\x7b' :: newLine (level + 1) (quote name (':' :: ' ' ::
      writePretty (level + 1) (writePrettyFields level rest fields) value))

/-- The items after the first one, one a line, before `rest`. -/
def writePrettyItems (level : Nat) (rest : List Char) : List Json → List Char
  | [] => newLine level (']' :: rest)
  | item :: items =>
    ',' :: newLine (level + 1) (writePretty (level + 1) (writePrettyItems level rest items) item)

/-- The fields after the first one, one a line, before `rest`. -/
def writePrettyFields (level : Nat) (rest : List Char) : List (String × Json) → List Char
  | [] => newLine level ('\x7d' :: rest)
  | (name, value) :: fields =>
    ',' :: newLine (level + 1) (quote name (':' :: ' ' ::
      writePretty (level + 1) (writePrettyFields level rest fields) value))

end

/-- The text of a value without blanks. -/
def compact (j : Json) : String :=
  String.ofList (write [] j)

/-- The text of a value with one item or field a line. -/
def pretty (j : Json) : String :=
  String.ofList (writePretty 0 [] j)

mutual

/-- The number of nested lists and objects of a value. -/
def depth : Json → Nat
  | .array items => depthItems items + 1
  | .object fields => depthFields fields + 1
  | _ => 0

/-- The largest depth of the items of a list. -/
def depthItems : List Json → Nat
  | [] => 0
  | item :: items => max (depth item) (depthItems items)

/-- The largest depth of the fields of an object. -/
def depthFields : List (String × Json) → Nat
  | [] => 0
  | (_, value) :: fields => max (depth value) (depthFields fields)

end

/-- A list of texts. -/
def strings (texts : List String) : Json :=
  .array (texts.map .string)

/-- A text, or `null` in its absence. -/
def stringOrNull : Option String → Json
  | some s => .string s
  | none => .null

end Json

end StagedAlgebra
