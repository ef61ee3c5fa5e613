/-!
# Tokens of YAML

The tokens say what the indentation and the marks of a text mean: where collections start and
end, which nodes are keys and which are values, and what the scalars are.
-/

namespace StagedAlgebra.Yaml

/-- How a scalar is written. -/
inductive ScalarStyle where
  /-- Without quotes. -/
  | plain
  /-- In quotes, or as a block. -/
  | marked
deriving DecidableEq

/-- A tag: the handle that says where it comes from, and its name. -/
structure Tag where
  /-- The handle, with its exclamation marks. -/
  handle : String
  /-- The name. -/
  name : String
deriving DecidableEq

/-- A token. -/
inductive Token where
  /-- A directive before a document. -/
  | directive
  /-- The start of a document. -/
  | documentStart
  /-- The end of a document. -/
  | documentEnd
  /-- The start of an indented list. -/
  | blockSequenceStart
  /-- The start of an indented mapping. -/
  | blockMappingStart
  /-- The end of an indented list or mapping. -/
  | blockEnd
  /-- The start of a list in brackets. -/
  | flowSequenceStart
  /-- The end of a list in brackets. -/
  | flowSequenceEnd
  /-- The start of a mapping in braces. -/
  | flowMappingStart
  /-- The end of a mapping in braces. -/
  | flowMappingEnd
  /-- The start of an item of an indented list. -/
  | blockEntry
  /-- A comma between items in brackets or braces. -/
  | flowEntry
  /-- The start of a key. -/
  | key
  /-- The start of a value. -/
  | value
  /-- A reference to a node with a name. -/
  | reference (name : String)
  /-- The name of the node that follows. -/
  | anchor (name : String)
  /-- The tag of the node that follows. -/
  | tag (tag : Tag)
  /-- A scalar. -/
  | scalar (style : ScalarStyle) (text : String)
deriving DecidableEq

end StagedAlgebra.Yaml
