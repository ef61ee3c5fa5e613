import StagedAlgebra.Yaml.Cursor

/-!
# Plain scalars

A plain scalar consists of words with gaps between them. A gap within a line is kept as it is. A
gap with line ends is folded: one line end becomes a space, and of several all but the first are
kept.
-/

namespace StagedAlgebra.Yaml

/-- The blanks and line ends between two words. -/
structure Gap where
  /-- The spaces and tabs before the first line end; they count only if there is none. -/
  blanks : List Char := []
  /-- The number of line ends. -/
  breaks : Nat := 0
  /-- Whether a line end before the gap is escaped, so that the first line end in it counts. -/
  escaped : Bool := false

namespace Gap

/-- Whether the spaces and tabs that follow belong to the indentation of a line. -/
def isFolded (g : Gap) : Bool :=
  g.escaped || g.breaks != 0

/-- The text that a gap stands for. -/
def text (g : Gap) : List Char :=
  if g.escaped then List.replicate g.breaks '\n'
  else
    match g.breaks with
    | 0 => g.blanks
    | 1 => [' ']
    | n + 2 => List.replicate (n + 1) '\n'

/-- Continues a gap from a place on, for at most as many steps as the list is long. A tab may not
indent a line before the column `indent`. -/
def readOn (indent : Nat) : (steps : List Char) → Gap → Cursor → Option (Gap × Cursor)
  | [], g, c => some (g, c)
  | _ :: steps, g, c =>
    if isBreak c.char then readOn indent steps { g with blanks := [], breaks := g.breaks + 1 } c.skipBreak
    else if !isSpace c.char then some (g, c)
    else if !g.isFolded then readOn indent steps { g with blanks := g.blanks ++ [c.char] } c.skip
    else if c.char == '\t' && decide (c.column < indent) then none
    else readOn indent steps g c.skip

/-- Reads the rest of a gap. -/
def read (indent : Nat) (g : Gap) (c : Cursor) : Option (Gap × Cursor) :=
  readOn indent c.rest g c

end Gap

/-- A scalar that has been read, and the place after it. -/
structure ReadScalar where
  /-- The text. -/
  text : List Char
  /-- The place after it. -/
  cursor : Cursor
  /-- Whether the end of a line was passed after the last word. -/
  passedBreak : Bool := false

/-- Whether a plain scalar stops inside a word: at a colon before a gap, and in a flow collection
at its marks. -/
def stopsPlain (flow : Bool) (c : Cursor) : Bool :=
  (c.char == ':' && (isGapOrEnd (c.charAt 1) || (flow && isFlowMark (c.charAt 1))))
    || (flow && isFlowMark c.char)

/-- The characters up to the end of a word, for at most as many steps as the list is long. -/
def readWord (flow : Bool) : (steps : List Char) → Cursor → List Char × Cursor
  | [], c => ([], c)
  | _ :: steps, c =>
    if isGapOrEnd c.char || stopsPlain flow c then ([], c)
    else
      let (word, c') := readWord flow steps c.skip
      (c.char :: word, c')

/-- Reads words and gaps. The scalar `read` is what came before, and `gap` is the gap after it. -/
def readWords (flow : Bool) (indent : Nat) :
    (steps : Nat) → (read : List Char) → (gap : Gap) → Cursor → Option ReadScalar
  | 0, _, _, _ => none
  | steps + 1, read, gap, c =>
    if c.atDocumentMark || c.char == '#' then some ⟨read, c, gap.isFolded⟩
    else
      let (word, c) := readWord flow c.rest c
      let (read, gap) := if word.isEmpty then (read, gap) else (read ++ gap.text ++ word, {})
      if !isSpace c.char && !isBreak c.char then some ⟨read, c, gap.isFolded⟩
      else
        match gap.read indent c with
        | none => none
        | some (gap, c) =>
          if !flow && decide (c.column < indent) then some ⟨read, c, gap.isFolded⟩
          else readWords flow indent steps read gap c

/-- Reads a plain scalar that is indented by at least `indent` columns. -/
def readPlain (flow : Bool) (indent : Nat) (c : Cursor) : Option ReadScalar :=
  readWords flow indent (c.rest.length + 2) [] {} c

end StagedAlgebra.Yaml
