import StagedAlgebra.Yaml.Token.Block
import StagedAlgebra.Yaml.Token.Property
import StagedAlgebra.Yaml.Token.Quoted

/-!
# The tokens of a text

`Token.ofText?` finds the tokens of a text. What a text means depends on its layout: a collection
without brackets starts where its first entry is indented deeper than what is around it, and it
ends before the first line that is indented less.

A node that could be a key is not known as one until the colon after it is met. Its place among
the tokens is kept until then, and the tokens that start a key are woven in at the end. A key
must stand on one line with its colon, and at most 1024 characters before it.
-/

namespace StagedAlgebra.Yaml

/-- A node that turns out to be a key if a colon follows. -/
structure PossibleKey where
  /-- The place of the node. -/
  place : Cursor
  /-- How many tokens come before it. -/
  number : Nat
  /-- Whether it must be a key. -/
  required : Bool

/-- Whether a node can no longer be a key at a later place. -/
def PossibleKey.isStale (k : PossibleKey) (c : Cursor) : Bool :=
  decide (k.place.line < c.line) || decide (k.place.index + 1024 < c.index)

/-- The tokens found so far, and what their layout lets follow. -/
structure Layout where
  /-- The place reached. -/
  cursor : Cursor
  /-- The tokens, the last one first. -/
  tokens : List Token := []
  /-- The number of tokens. -/
  count : Nat := 0
  /-- Tokens to be woven in before the tokens with certain numbers, the last ones first. -/
  starts : List (Nat × List Token) := []
  /-- Whether a key without a mark may start here. -/
  keyAllowed : Bool := true
  /-- The possible keys: one for each open bracket or brace, innermost first, and one outside. -/
  keys : List (Option PossibleKey) := [none]
  /-- The columns of the open collections without brackets, innermost first. -/
  indents : List Nat := []
  /-- The place at which a colon may be followed by a value without a gap. -/
  adjacentAt : Nat := 0

namespace Layout

/-- The number of open brackets and braces. -/
def flowLevel (l : Layout) : Nat := l.keys.length - 1

/-- Whether a bracket or brace is open. -/
def inFlow (l : Layout) : Bool := l.flowLevel != 0

/-- A layout with one more token. -/
def push (l : Layout) (t : Token) : Layout :=
  { l with tokens := t :: l.tokens, count := l.count + 1 }

/-- A layout at the place after the next `n` characters. -/
def advance (l : Layout) (n : Nat) : Layout :=
  { l with cursor := l.cursor.skipMany n }

/-- A layout with keys allowed or not. -/
def allowKey (l : Layout) (allowed : Bool) : Layout :=
  { l with keyAllowed := allowed }

/-- A layout with another innermost possible key. -/
def setKey (l : Layout) (key : Option PossibleKey) : Layout :=
  { l with keys := key :: l.keys.tail }

/-- The innermost possible key. -/
def key? (l : Layout) : Option PossibleKey :=
  l.keys.head?.join

/-- Gives up the innermost possible key, which must not be required. -/
def dropKey (l : Layout) : Option Layout :=
  match l.key? with
  | some k => if k.required then none else some (l.setKey none)
  | none => some l

/-- Keeps the place of a node that may be a key, if keys are allowed. -/
def saveKey (l : Layout) : Option Layout :=
  if l.keyAllowed then
    let required := l.inFlow && l.indents.head? == some l.cursor.column
    l.dropKey.map fun l => l.setKey (some ⟨l.cursor, l.count, required⟩)
  else some l

/-- A possible key that is still possible at a place; a required one must be. -/
def refreshKey (c : Cursor) (key : Option PossibleKey) : Option (Option PossibleKey) :=
  match key with
  | none => some none
  | some k => if k.isStale c then (if k.required then none else some none) else some (some k)

/-- Gives up all possible keys that are too far back. -/
def refreshKeys (l : Layout) : Option Layout :=
  (l.keys.mapM (refreshKey l.cursor)).map fun keys => { l with keys }

/-- Ends the collections without brackets that are indented by at least `column`. -/
def closeFrom (l : Layout) (column : Nat) : Layout :=
  if l.inFlow then l
  else
    let closed := (l.indents.takeWhile fun n => decide (column ≤ n)).length
    { l with
      tokens := List.replicate closed .blockEnd ++ l.tokens
      count := l.count + closed
      indents := l.indents.drop closed }

/-- Whether an entry at a column starts a collection without brackets. -/
def opensAt (l : Layout) (column : Nat) : Bool :=
  !l.inFlow && match l.indents.head? with
    | none => true
    | some n => decide (n < column)

/-- Starts a collection without brackets at the place reached, if one starts there. -/
def openHere (l : Layout) (start : Token) : Layout :=
  let column := l.cursor.column
  if l.opensAt column then { l.push start with indents := column :: l.indents } else l

/-- Passes over blanks, line ends and comments. After a line end a key may start. -/
def skipGaps : (steps : List Char) → Layout → Layout
  | [], l => l
  | _ :: steps, l =>
    let ch := l.cursor.char
    if ch == ' ' || (ch == '\t' && (l.inFlow || !l.keyAllowed)) then skipGaps steps (l.advance 1)
    else if isBreak ch then
      skipGaps steps { l with cursor := l.cursor.skipBreak, keyAllowed := l.keyAllowed || !l.inFlow }
    else if ch == '#' then skipGaps steps { l with cursor := l.cursor.skipComment }
    else l

/-- Reads the start of a bracket or brace; at most 255 may be open. -/
def openFlow (l : Layout) (t : Token) : Option Layout :=
  l.saveKey.bind fun l =>
    if l.flowLevel < 255 then
      some (({ l with keys := none :: l.keys }.allowKey true).push t |>.advance 1)
    else none

/-- Reads the end of a bracket or brace. -/
def closeFlow (l : Layout) (t : Token) : Option Layout :=
  l.dropKey.map fun l =>
    let keys := if l.inFlow then l.keys.tail else l.keys
    (({ l with keys }.allowKey false).push t).advance 1

/-- Reads a comma. -/
def readComma (l : Layout) : Option Layout :=
  l.dropKey.map fun l => ((l.allowKey true).push .flowEntry).advance 1

/-- Reads the mark of an item of a list without brackets. -/
def readEntry (l : Layout) : Option Layout :=
  if l.inFlow || !l.keyAllowed then none
  else
    (l.openHere .blockSequenceStart).dropKey.map fun l =>
      ((l.allowKey true).push .blockEntry).advance 1

/-- Reads the mark of a key. -/
def readKeyMark (l : Layout) : Option Layout :=
  if !l.inFlow && !l.keyAllowed then none
  else
    (l.openHere .blockMappingStart).dropKey.map fun l =>
      ((l.allowKey !l.inFlow).push .key).advance 1

/-- Reads the colon after a node, which so turns out to be a key. -/
def readColonAfter (l : Layout) (k : PossibleKey) : Layout :=
  let column := k.place.column
  let opens := l.opensAt column
  let start := if opens then [.blockMappingStart, .key] else [.key]
  let indents := if opens then column :: l.indents else l.indents
  let l := { l with starts := (k.number, start) :: l.starts, indents }
  (((l.setKey none).allowKey false).push .value).advance 1

/-- Reads the colon before a value. -/
def readColon (l : Layout) : Option Layout :=
  match l.key? with
  | some k => some (l.readColonAfter k)
  | none =>
    if !l.inFlow && !l.keyAllowed then none
    else
      let l := l.openHere .blockMappingStart
      some (((l.allowKey !l.inFlow).push .value).advance 1)

/-- Reads the mark of the start or the end of a document. -/
def readDocumentMark (l : Layout) (t : Token) : Option Layout :=
  (l.closeFrom 0).dropKey.map fun l => ((l.allowKey false).push t).advance 3

/-- Reads a directive. -/
def readDirectiveLine (l : Layout) : Option Layout :=
  (l.closeFrom 0).dropKey.bind fun l =>
    (readDirective l.cursor).map fun cursor =>
      { (l.allowKey false).push .directive with cursor }

/-- Reads an anchor or an alias. -/
def readAnchor (l : Layout) (token : String → Token) : Option Layout :=
  l.saveKey.bind fun l =>
    (readAnchorName l.cursor).map fun (name, cursor) =>
      { (l.allowKey false).push (token name) with cursor }

/-- Reads the tag of a node. -/
def readNodeTag (l : Layout) : Option Layout :=
  l.saveKey.bind fun l =>
    (readTag l.cursor).map fun (tag, cursor) => { (l.allowKey false).push (.tag tag) with cursor }

/-- Reads a block scalar. -/
def readBlockScalar (l : Layout) : Option Layout :=
  l.saveKey.bind fun l =>
    (readBlock l.indents.head? l.cursor).map fun s =>
      { (l.allowKey true).push (.scalar .marked (String.ofList s.text)) with cursor := s.cursor }

/-- Reads a quoted scalar. A colon right after it may be followed by a value without a gap. -/
def readQuotedScalar (l : Layout) : Option Layout :=
  l.saveKey.bind fun l =>
    (readQuoted l.cursor).map fun s =>
      { (l.allowKey false).push (.scalar .marked (String.ofList s.text)) with
        cursor := s.cursor, adjacentAt := s.cursor.index }

/-- Reads a plain scalar. -/
def readPlainScalar (l : Layout) : Option Layout :=
  let indent := match l.indents.head? with
    | none => 0
    | some n => n + 1
  l.saveKey.bind fun l =>
    (readPlain l.inFlow indent l.cursor).map fun s =>
      { (l.allowKey s.passedBreak).push (.scalar .plain (String.ofList s.text)) with
        cursor := s.cursor }

/-- Whether a colon stands before a value. -/
def atColon (l : Layout) : Bool :=
  let next := l.cursor.charAt 1
  l.cursor.char == ':' &&
    (isGapOrEnd next
      || (l.inFlow && (isFlowMark next || l.cursor.index == l.adjacentAt)))

/-- Reads the token at the place reached. -/
def readToken (l : Layout) : Option Layout :=
  let c := l.cursor
  let beforeGap := isGapOrEnd (c.charAt 1)
  if c.column == 0 && c.char == '%' then l.readDirectiveLine
  else if c.atMark '-' then l.readDocumentMark .documentStart
  else if c.atMark '.' then l.readDocumentMark .documentEnd
  else if c.char == '[' then l.openFlow .flowSequenceStart
  else if c.char == '\x7b' then l.openFlow .flowMappingStart
  else if c.char == ']' then l.closeFlow .flowSequenceEnd
  else if c.char == '\x7d' then l.closeFlow .flowMappingEnd
  else if c.char == ',' then l.readComma
  else if c.char == '-' && beforeGap then l.readEntry
  else if c.char == '?' && beforeGap then l.readKeyMark
  else if l.atColon then l.readColon
  else if c.char == '*' then l.readAnchor .reference
  else if c.char == '&' then l.readAnchor .anchor
  else if c.char == '!' then l.readNodeTag
  else if (c.char == '|' || c.char == '>') && !l.inFlow then l.readBlockScalar
  else if c.char == '\'' || c.char == '"' then l.readQuotedScalar
  else if c.char == '%' || c.char == '@' || c.char == Char.ofNat 96 then none
  else l.readPlainScalar

/-- Ends everything at the end of the text. -/
def finish (l : Layout) : Option Layout :=
  (l.closeFrom 0).dropKey

/-- Reads tokens to the end of the text. -/
def readAll : (steps : Nat) → Layout → Option Layout
  | 0, _ => none
  | steps + 1, l =>
    match (skipGaps l.cursor.rest l).refreshKeys with
    | none => none
    | some l =>
      let l := l.closeFrom (l.cursor.column + 1)
      if isEnd l.cursor.char then l.finish
      else
        match l.readToken with
        | none => none
        | some l => l.readAll steps

/-- Weaves tokens in before the tokens with certain numbers, which ascend. The first token has the
number `number`. -/
def weave (number : Nat) : List (Nat × List Token) → List Token → List Token
  | [], tokens => tokens
  | _, [] => []
  | starts, t :: tokens =>
    let here := (starts.takeWhile fun s => s.1 == number).flatMap (·.2)
    here ++ t :: weave (number + 1) (starts.dropWhile fun s => s.1 == number) tokens

/-- All tokens of a layout, in order. -/
def allTokens (l : Layout) : List Token :=
  weave 0 (l.starts.mergeSort fun a b => decide (a.1 ≤ b.1)) l.tokens.reverse

end Layout

/-- The tokens of a text. -/
def Token.ofText? (s : String) : Option (List Token) :=
  let cs := s.toList
  (Layout.readAll (cs.length + 2) { cursor := { rest := cs } }).map Layout.allTokens

end StagedAlgebra.Yaml
