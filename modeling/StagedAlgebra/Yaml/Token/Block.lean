import StagedAlgebra.Text.Decimal
import StagedAlgebra.Yaml.Token.Plain

/-!
# Block scalars

A block scalar is a header and the indented lines below it. In a literal block the line ends are
kept; in a folded one a single line end between two lines that do not start with a blank becomes
a space. The header says how deep the lines are indented, unless the first line is to show it,
and what happens to the line ends after the last line.
-/

namespace StagedAlgebra.Yaml

/-- What happens to the line ends after the last line of a block. -/
inductive Chomping where
  /-- The first one is kept. -/
  | clip
  /-- None is kept. -/
  | strip
  /-- All are kept. -/
  | keep

/-- The header of a block. -/
structure BlockHeader where
  /-- What happens to the line ends after the last line. -/
  chomping : Chomping := .clip
  /-- How much deeper than its surroundings a block is indented, if the header says so. -/
  increment : Option Nat := none

/-- Reads a sign of what happens to the last line ends. -/
def readChomping (h : BlockHeader) (c : Cursor) : BlockHeader × Cursor :=
  if c.char == '+' then ({ h with chomping := .keep }, c.skip)
  else if c.char == '-' then ({ h with chomping := .strip }, c.skip)
  else (h, c)

/-- Reads a digit of the indentation; it may not be zero. -/
def readIncrement (h : BlockHeader) (c : Cursor) : Option (BlockHeader × Cursor) :=
  match Text.digit? c.char with
  | none => some (h, c)
  | some 0 => none
  | some n => some ({ h with increment := some n }, c.skip)

/-- Reads the two parts of a header in either order. -/
def readHeaderMarks (c : Cursor) : Option (BlockHeader × Cursor) :=
  if c.char == '+' || c.char == '-' then
    let (h, c) := readChomping {} c
    readIncrement h c
  else (readIncrement {} c).map fun (h, c) => if h.increment.isSome then readChomping h c else (h, c)

/-- Reads a header to the end of its line. -/
def readHeader (c : Cursor) : Option (BlockHeader × Cursor) :=
  match readHeaderMarks c with
  | none => none
  | some (h, c) =>
    let c := (c.skipWhile isSpace).skipComment
    if isBreakOrEnd c.char then some (h, c.skipBreak) else none

/-- The indentation and the empty lines before a line of a block. -/
structure BlockIndent where
  /-- The number of empty lines. -/
  breaks : Nat
  /-- The largest column reached. -/
  deepest : Nat
  /-- The place of the line. -/
  cursor : Cursor

/-- Reads the indentation of lines up to one that is not empty. Without a known indentation all
spaces belong to it, and a tab may not follow. -/
def readIndent (indent : Option Nat) : (steps : Nat) → BlockIndent → Option BlockIndent
  | 0, _ => none
  | steps + 1, found =>
    let spaces := found.cursor.rest.takeWhile (· == ' ')
    let count := match indent with
      | none => spaces.length
      | some n => min spaces.length (n - found.cursor.column)
    let c := found.cursor.skipMany count
    let deepest := max found.deepest c.column
    let tabRefused := match indent with
      | none => true
      | some n => decide (c.column < n)
    if tabRefused && c.char == '\t' then none
    else if isBreak c.char then readIndent indent steps ⟨found.breaks + 1, deepest, c.skipBreak⟩
    else some ⟨found.breaks, deepest, c⟩

/-- The text of a block so far. -/
structure BlockText where
  /-- The text without the last line ends. -/
  text : List Char := []
  /-- Whether a line end follows the last line. -/
  lineEnd : Bool := false
  /-- The number of empty lines after it. -/
  breaks : Nat
  /-- Whether the last line starts with a blank. -/
  startsBlank : Bool := false

namespace BlockText

/-- A text with one more line. -/
def addLine (literal : Bool) (b : BlockText) (line : List Char) : BlockText :=
  let blank := isSpace (line.headD '\x00')
  let ending :=
    if !b.lineEnd then []
    else if literal || b.startsBlank || blank then ['\n']
    else if b.breaks = 0 then [' ']
    else []
  ⟨b.text ++ ending ++ List.replicate b.breaks '\n' ++ line, false, 0, blank⟩

/-- A text with the line ends after its last line. -/
def close (b : BlockText) (chomping : Chomping) : List Char :=
  let lineEnd := if b.lineEnd then ['\n'] else []
  match chomping with
  | .strip => b.text
  | .clip => b.text ++ lineEnd
  | .keep => b.text ++ lineEnd ++ List.replicate b.breaks '\n'

end BlockText

/-- Reads the lines that are indented by exactly `indent` columns. -/
def readLines (literal : Bool) (indent : Nat) :
    (steps : Nat) → BlockText → Cursor → Option (BlockText × Cursor)
  | 0, _, _ => none
  | steps + 1, b, c =>
    if c.column != indent || isEnd c.char then some (b, c)
    else
      let (line, c) := c.takeWhile fun ch => !isBreakOrEnd ch
      let b := b.addLine literal line
      if isEnd c.char then some (b, c)
      else
        match readIndent (some indent) (c.rest.length + 1) ⟨0, 0, c.skipBreak⟩ with
        | none => none
        | some next => readLines literal indent steps { b with lineEnd := true, breaks := next.breaks }
            next.cursor

/-- Reads a block scalar from its mark on; `surrounding` is the column of the collection around
it, if there is one. -/
def readBlock (surrounding : Option Nat) (c : Cursor) : Option ReadScalar :=
  let literal := c.char == '|'
  match readHeader c.skip with
  | none => none
  | some (h, c) =>
    let known := h.increment.map fun n => surrounding.getD 0 + n
    match readIndent known (c.rest.length + 1) ⟨0, 0, c⟩ with
    | none => none
    | some first =>
      let least := match surrounding with
        | none => 1
        | some n => n + 1
      let indent := known.getD (max first.deepest least)
      (readLines literal indent (c.rest.length + 1) { breaks := first.breaks } first.cursor).map
        fun (b, c) => ⟨b.close h.chomping, c, false⟩

end StagedAlgebra.Yaml
