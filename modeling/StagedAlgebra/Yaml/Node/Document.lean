import StagedAlgebra.Document
import StagedAlgebra.Yaml.Node.Grammar
import StagedAlgebra.Yaml.Token.Layout

/-!
# YAML documents

`Yaml.parse?` reads the only document of a YAML text. References are replaced by what they refer
to. A plain scalar without a tag can be read as an integer, a truth value or an empty value as well
as a text. A common tag fixes the reading beside the text, and every other scalar is only a text.

## Implementation notes

A reference inside the node that it refers to has no finite replacement. A document is therefore
resolved in rounds, each of which replaces such a reference by what the round before made of the
node, and the first by what is unreadable. Every replacement stands in a further collection, so that
after `n` rounds the document is complete down to `n` nested collections.
-/

namespace StagedAlgebra.Yaml

/-- The digits of a number in base sixteen, eight or two after its mark. -/
def basedDigits? : List Char → Option (Nat × List Char)
  | '0' :: 'x' :: digits => some (16, digits)
  | '0' :: 'o' :: digits => some (8, digits)
  | '0' :: 'b' :: digits => some (2, digits)
  | _ => none

/-- The number in another base than ten that a text writes. -/
def basedInt? (cs : List Char) : Option Int :=
  match cs with
  | '-' :: cs => (basedDigits? cs).bind fun (base, digits) => Text.intIn? base ('-' :: digits)
  | '+' :: cs => (basedDigits? cs).bind fun (base, digits) => (Text.wordIn? base digits).map Int.ofNat
  | cs => (basedDigits? cs).bind fun (base, digits) => (Text.wordIn? base digits).map Int.ofNat

/-- Whether a text is several digits after signs, the first of them zero. -/
def hasLeadingZero (cs : List Char) : Bool :=
  let digits := cs.dropWhile fun c => c == '-' || c == '+'
  digits.length ≥ 2 && digits.head? == some '0' && digits.all Text.isDigit

/-- The integer that a plain scalar writes. -/
def plainInt? (s : String) : Option Int :=
  match basedInt? s.toList with
  | some i => some i
  | none =>
    if hasLeadingZero s.toList then none
    else
      match Text.word64? s with
      | some n => some (Int.ofNat n)
      | none => Text.int64? s

/-- The truth value that a plain scalar writes. -/
def plainBool? : String → Option Bool
  | "true" => some true
  | "false" => some false
  | _ => none

/-- Whether a scalar writes the empty value. -/
def isNullText (s : String) : Bool :=
  s == "~" || s == "null"

/-- The readings of a plain scalar. -/
def plainLeaf (s : String) : Leaf where
  text := some s
  int := plainInt? s
  bool := plainBool? s
  isNull := isNullText s
  presence := if isNullText s then .leftOut else .given

/-- What a scalar with the tag of the empty value says where a value may be left out; one in
quotes is a value. -/
def nullPresence (style : ScalarStyle) (s : String) : Presence :=
  if style = .marked then .given
  else if isNullText s then .leftOut
  else .contradictory

/-- The readings of a scalar with a common tag. -/
def typedLeaf (type : String) (style : ScalarStyle) (s : String) : Leaf :=
  match type with
  | "bool" => { text := some s, bool := plainBool? s }
  | "int" => { text := some s, int := Text.int64? s }
  | "null" => { text := some s, isNull := isNullText s, presence := nullPresence style s }
  | _ => { text := some s }

/-- A scalar as a document. A tag with a single mark is kept, as it can choose a variant. -/
def scalarDocument (tag : Option Tag) (style : ScalarStyle) (s : String) : Document :=
  match tag with
  | none => .leaf (if style = .plain then plainLeaf s else { text := some s })
  | some tag =>
    if tag.handle = "!!" then .leaf (typedLeaf tag.name style s)
    else if tag.handle = "!" then .tagged tag.name (.leaf { text := some s })
    else .leaf { text := some s }

/-- The names met so far with the documents they refer to, the first one first. -/
abbrev Names := List (String × Document)

/-- The document of the last node with a name. -/
def Names.resolve? (names : Names) (name : String) : Option Document :=
  (names.reverse.find? (·.1 == name)).map (·.2)

/-- The name of a field that a key writes. -/
def keyName (key : Node) (doc : Document) : FieldName :=
  match key, doc.text? with
  | _, none => .nameless
  | .reference _, some name => .referred name
  | _, some name => .written name

mutual

/-- A node as a document, and the names met by its end. While a node is read, its name refers to
what the round `before` made of it. -/
def Node.resolve (before names : Names) : Node → Option (Document × Names)
  | .scalar tag style text => some (scalarDocument tag style text, names)
  | .sequence items =>
    (resolveItems before names items).map fun (items, names) => (.list items, names)
  | .mapping entries =>
    (resolveEntries before names entries).map fun (entries, names) => (.fields entries, names)
  | .reference name => (names.resolve? name).map fun doc => (.referred doc, names)
  | .named name node =>
    let earlier := (before[names.length]?.map (·.2)).getD .unreadable
    (node.resolve before (names ++ [(name, earlier)])).map fun (doc, after) =>
      (doc, after.set names.length (name, doc))

/-- The items of a list as documents. -/
def resolveItems (before names : Names) : List Node → Option (List Document × Names)
  | [] => some ([], names)
  | item :: items =>
    match item.resolve before names with
    | none => none
    | some (doc, names) =>
      (resolveItems before names items).map fun (docs, names) => (doc :: docs, names)

/-- The entries of a mapping as fields. -/
def resolveEntries (before names : Names) :
    List (Node × Node) → Option (List (FieldName × Document) × Names)
  | [] => some ([], names)
  | (key, value) :: entries =>
    match key.resolve before names with
    | none => none
    | some (keyDoc, names) =>
      match value.resolve before names with
      | none => none
      | some (doc, names) =>
        (resolveEntries before names entries).map fun (fields, names) =>
          ((keyName key keyDoc, doc) :: fields, names)

end

/-- A node as a document and its names, after a number of rounds that follow a first one. -/
def Node.unroll (node : Node) : Nat → Option (Document × Names)
  | 0 => node.resolve [] []
  | rounds + 1 => (node.unroll rounds).bind fun (_, names) => node.resolve names []

/-- A node as a document, complete down to `depth` nested collections. -/
def Node.document? (node : Node) (depth : Nat) : Option Document :=
  (node.unroll (if node.refersOutward [] then depth else 0)).map (·.1)

/-- The only document of a text, complete down to `depth` nested collections. -/
def parse? (depth : Nat) (s : String) : Option Document :=
  ((Token.ofText? s).bind Node.ofTokens?).bind (·.document? depth)

end StagedAlgebra.Yaml
