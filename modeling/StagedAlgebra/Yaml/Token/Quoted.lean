import StagedAlgebra.Text.Decimal
import StagedAlgebra.Yaml.Token.Plain

/-!
# Quoted scalars

In single quotes a quote is written twice and nothing else is escaped. In double quotes a
backslash escapes the character after it, or the end of the line. Gaps are folded as in plain
scalars.
-/

namespace StagedAlgebra.Yaml

/-- The character that a letter after a backslash stands for. -/
def escapedChar? : Char → Option Char
  | '0' => some '\x00'
  | 'a' => some '\x07'
  | 'b' => some '\x08'
  | 't' => some '\t'
  | '\t' => some '\t'
  | 'n' => some '\n'
  | 'v' => some '\x0b'
  | 'f' => some '\x0c'
  | 'r' => some '\r'
  | 'e' => some '\x1b'
  | ' ' => some ' '
  | '"' => some '"'
  | '\'' => some '\''
  | '\\' => some '\\'
  | 'N' => some '\u0085'
  | '_' => some '\u00a0'
  | 'L' => some '\u2028'
  | 'P' => some '\u2029'
  | _ => none

/-- How many hexadecimal digits follow a letter after a backslash. -/
def escapeDigits? : Char → Option Nat
  | 'x' => some 2
  | 'u' => some 4
  | 'U' => some 8
  | _ => none

/-- Reads an escape from its backslash on. -/
def readEscape (c : Cursor) : Option (Char × Cursor) :=
  match escapeDigits? (c.charAt 1) with
  | none => (escapedChar? (c.charAt 1)).map fun ch => (ch, c.skip.skip)
  | some count =>
    let c := c.skip.skip
    let digits := c.rest.take count
    if digits.length = count then
      ((Text.numeral? 16 digits).bind charOfNat?).map fun ch => (ch, c.skipMany count)
    else none

/-- What is read between two gaps of a quoted scalar. -/
structure QuotedWord where
  /-- The text. -/
  text : List Char
  /-- Whether an escaped line end follows. -/
  escapedBreak : Bool
  /-- The place after it. -/
  cursor : Cursor

/-- Reads up to a gap or to the closing quote. -/
def readQuotedWord (quote : Char) : (steps : Nat) → Cursor → Option QuotedWord
  | 0, _ => none
  | steps + 1, c =>
    let go := fun (ch : Char) (c : Cursor) =>
      (readQuotedWord quote steps c).map fun w => { w with text := ch :: w.text }
    if isGapOrEnd c.char then some ⟨[], false, c⟩
    else if quote == '\'' && c.char == '\'' && c.charAt 1 == '\'' then go '\'' c.skip.skip
    else if c.char == quote then some ⟨[], false, c⟩
    else if quote == '"' && c.char == '\\' then
      if isBreak (c.charAt 1) then some ⟨[], true, c.skip.skipBreak⟩
      else
        match readEscape c with
        | none => none
        | some (ch, c) => go ch c
    else go c.char c.skip

/-- Reads words and gaps up to the closing quote; `read` is what came before. -/
def readQuotedWords (quote : Char) : (steps : Nat) → (read : List Char) → Cursor → Option ReadScalar
  | 0, _, _ => none
  | steps + 1, read, c =>
    if c.atDocumentMark || isEnd c.char then none
    else
      match readQuotedWord quote (c.rest.length + 1) c with
      | none => none
      | some word =>
        let read := read ++ word.text
        if word.cursor.char == quote then some ⟨read, word.cursor.skip, false⟩
        else
          match Gap.read 0 { escaped := word.escapedBreak } word.cursor with
          | none => none
          | some (gap, c) => readQuotedWords quote steps (read ++ gap.text) c

/-- Reads a quoted scalar from its opening quote on. -/
def readQuoted (c : Cursor) : Option ReadScalar :=
  readQuotedWords c.char (c.rest.length + 1) [] c.skip

end StagedAlgebra.Yaml
