/-!
# Places in a text

A cursor is a place in a text together with its line and column, which decide the structure of
YAML. The end of the text reads as the character zero; a zero inside the text ends it, too.

Only a line feed starts a new line here. A carriage return ends a line where a line end is
expected, but it does not bring the column back.
-/

namespace StagedAlgebra.Yaml

/-- A space or a tab. -/
def isSpace (c : Char) : Bool := c == ' ' || c == '\t'

/-- The end of a line. -/
def isBreak (c : Char) : Bool := c == '\n' || c == '\r'

/-- The end of the text. -/
def isEnd (c : Char) : Bool := c == '\x00'

/-- The end of a line or of the text. -/
def isBreakOrEnd (c : Char) : Bool := isBreak c || isEnd c

/-- What ends a word: a space, a tab, or the end of a line or of the text. -/
def isGapOrEnd (c : Char) : Bool := isSpace c || isBreakOrEnd c

/-- The brackets and commas of flow collections. -/
def isFlowMark (c : Char) : Bool :=
  c == ',' || c == '[' || c == ']' || c == '\x7b' || c == '\x7d'

/-- The characters of names: letters, digits, hyphens and underscores. -/
def isNameChar (c : Char) : Bool :=
  c.isAlphanum || c == '_' || c == '-'

/-- The character with a number. -/
def charOfNat? (n : Nat) : Option Char :=
  if n.isValidChar then some (Char.ofNat n) else none

/-- A place in a text. -/
structure Cursor where
  /-- What follows. -/
  rest : List Char
  /-- How many characters come before. -/
  index : Nat := 0
  /-- How many lines come before. -/
  line : Nat := 0
  /-- How many characters of the line come before. -/
  column : Nat := 0

namespace Cursor

/-- The character at a place. -/
def char (c : Cursor) : Char := c.rest.headD '\x00'

/-- The character `n` after a place. -/
def charAt (c : Cursor) (n : Nat) : Char := c.rest.getD n '\x00'

/-- The place after the next character. -/
def skip (c : Cursor) : Cursor :=
  match c.rest with
  | [] => c
  | ch :: rest =>
    if ch = '\n' then ⟨rest, c.index + 1, c.line + 1, 0⟩
    else ⟨rest, c.index + 1, c.line, c.column + 1⟩

/-- The place after the next `n` characters. -/
def skipMany (c : Cursor) : Nat → Cursor
  | 0 => c
  | n + 1 => c.skip.skipMany n

/-- The place after the end of a line. -/
def skipBreak (c : Cursor) : Cursor :=
  if c.char == '\r' && c.charAt 1 == '\n' then c.skip.skip
  else if isBreak c.char then c.skip
  else c

/-- The characters that satisfy a test, and the place after them. -/
def takeWhile (c : Cursor) (test : Char → Bool) : List Char × Cursor :=
  let taken := c.rest.takeWhile test
  (taken, c.skipMany taken.length)

/-- The place after the characters that satisfy a test. -/
def skipWhile (c : Cursor) (test : Char → Bool) : Cursor :=
  (c.takeWhile test).2

/-- The place after a comment, if there is one. -/
def skipComment (c : Cursor) : Cursor :=
  if c.char == '#' then c.skipWhile fun ch => !isBreakOrEnd ch else c

/-- Whether a mark of three equal characters stands alone at the start of a line. -/
def atMark (c : Cursor) (mark : Char) : Bool :=
  c.column == 0 && c.char == mark && c.charAt 1 == mark && c.charAt 2 == mark
    && isGapOrEnd (c.charAt 3)

/-- Whether a document starts or ends at a place. -/
def atDocumentMark (c : Cursor) : Bool :=
  c.atMark '-' || c.atMark '.'

end Cursor

end StagedAlgebra.Yaml
