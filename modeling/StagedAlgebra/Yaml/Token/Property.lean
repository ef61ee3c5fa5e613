import StagedAlgebra.Text.Decimal
import StagedAlgebra.Yaml.Cursor
import StagedAlgebra.Yaml.Token

/-!
# Anchors, tags and directives

Anchors and aliases are names after an ampersand or an asterisk. A tag is a handle and a name, or
a name in angle brackets. Directives stand before a document; they are read and not used.
-/

namespace StagedAlgebra.Yaml

/-- Reads the name of an anchor or an alias from its mark on. -/
def readAnchorName (c : Cursor) : Option (String × Cursor) :=
  let (name, c) := c.skip.takeWhile isNameChar
  let ends := isGapOrEnd c.char
    || ['?', ':', ',', ']', '\x7d', '%', '@', Char.ofNat 96].contains c.char
  if name.isEmpty || !ends then none else some (String.ofList name, c)

/-- The characters of the name of a tag, other than escapes. -/
def isTagChar (c : Char) : Bool :=
  isNameChar c || [';', '/', '?', ':', '@', '&', '=', '+', '$', ',', '.', '!', '~', '*', '\'', '(',
    ')', '[', ']'].contains c

/-- How many escapes make up one character, by the number of the first one. -/
def escapeCount? (n : Nat) : Option Nat :=
  if n < 0x80 then some 1
  else if n < 0xC0 then none
  else if n < 0xE0 then some 2
  else if n < 0xF0 then some 3
  else if n < 0xF8 then some 4
  else none

/-- Reads one escape of two hexadecimal digits. -/
def readOctet (c : Cursor) : Option (Nat × Cursor) :=
  if c.char != '%' then none
  else (Text.numeral? 16 [c.charAt 1, c.charAt 2]).map fun n => (n, c.skipMany 3)

/-- Reads the escapes that continue a character; `code` is the number that those before write. -/
def readOctets (code : Nat) : (count : Nat) → Cursor → Option (Nat × Cursor)
  | 0, c => some (code, c)
  | count + 1, c =>
    match readOctet c with
    | some (n, c) => if n / 64 = 2 then readOctets (code * 256 + n) count c else none
    | none => none

/-- Reads one character that is written as escapes. The escapes are the digits of its number in
base 256, and their count is that of the UTF-8 form, so no character takes more than two. -/
def readTagChar (c : Cursor) : Option (Char × Cursor) :=
  match readOctet c with
  | none => none
  | some (n, c) =>
    match (escapeCount? n).bind fun count => readOctets n (count - 1) c with
    | none => none
    | some (code, c) => (charOfNat? code).map fun ch => (ch, c)

/-- Reads the name of a tag. -/
def readTagName : (steps : Nat) → Cursor → Option (List Char × Cursor)
  | 0, _ => none
  | steps + 1, c =>
    if c.char == '%' then
      match readTagChar c with
      | none => none
      | some (ch, c) => (readTagName steps c).map fun (name, c) => (ch :: name, c)
    else if isTagChar c.char then
      (readTagName steps c.skip).map fun (name, c') => (c.char :: name, c')
    else some ([], c)

/-- Reads the handle of a tag: an exclamation mark, and perhaps letters and another one. -/
def readHandle (c : Cursor) : Option (List Char × Cursor) :=
  if c.char != '!' then none
  else
    let (name, c) := c.skip.takeWhile isNameChar
    if c.char == '!' then some ('!' :: name ++ ['!'], c.skip) else some ('!' :: name, c)

/-- Whether a handle ends with an exclamation mark of its own. -/
def isClosedHandle (handle : List Char) : Bool :=
  handle.length ≥ 2 && handle.getLast? == some '!'

/-- Reads a tag up to what follows it. -/
def readTagBody (c : Cursor) : Option (Tag × Cursor) :=
  let steps := c.rest.length + 1
  if c.charAt 1 == '<' then
    match readTagName steps c.skip.skip with
    | some (name, c) =>
      if name.isEmpty || c.char != '>' then none else some (⟨"", String.ofList name⟩, c.skip)
    | none => none
  else
    match readHandle c with
    | none => none
    | some (handle, c) =>
      match readTagName steps c with
      | none => none
      | some (name, c) =>
        if isClosedHandle handle then
          if name.isEmpty then none
          else some (⟨String.ofList handle, String.ofList name⟩, c)
        else
          let name := handle.tail ++ name
          if name.isEmpty then some (⟨"", "!"⟩, c) else some (⟨"!", String.ofList name⟩, c)

/-- Reads a tag from its mark on; a gap must follow it. -/
def readTag (c : Cursor) : Option (Tag × Cursor) :=
  match readTagBody c with
  | some (tag, c) => if isGapOrEnd c.char then some (tag, c) else none
  | none => none

/-- Reads a part of a version number, of at most nine digits. -/
def readVersionPart (c : Cursor) : Option Cursor :=
  let (digits, c) := c.takeWhile Char.isDigit
  if digits.isEmpty || digits.length > 9 then none else some c

/-- Reads the version that a directive names. -/
def readVersion (c : Cursor) : Option Cursor :=
  match readVersionPart (c.skipWhile isSpace) with
  | some c => if c.char == '.' then readVersionPart c.skip else none
  | none => none

/-- Reads the handle and the prefix that a directive names. -/
def readHandlePrefix (c : Cursor) : Option Cursor :=
  match readHandle (c.skipWhile isSpace) with
  | none => none
  | some (handle, c) =>
    if handle != ['!'] && !isClosedHandle handle then none
    else
      match readTagName (c.rest.length + 1) (c.skipWhile isSpace) with
      | some (name, c) => if name.isEmpty || !isGapOrEnd c.char then none else some c
      | none => none

/-- Reads what follows the name of a directive. -/
def readDirectiveBody (name : String) (c : Cursor) : Option Cursor :=
  match name with
  | "YAML" => readVersion c
  | "TAG" => readHandlePrefix c
  | _ => some (c.skipWhile fun ch => !isBreakOrEnd ch)

/-- Reads a directive from its mark on, with the end of its line. -/
def readDirective (c : Cursor) : Option Cursor :=
  let (name, c) := c.skip.takeWhile isNameChar
  if name.isEmpty || !isGapOrEnd c.char then none
  else
    match readDirectiveBody (String.ofList name) c with
    | none => none
    | some c =>
      let c := (c.skipWhile isSpace).skipComment
      if isBreakOrEnd c.char then some c.skipBreak else none

end StagedAlgebra.Yaml
