import StagedAlgebra.Yaml.Token

/-!
# Nodes

A node is what the tokens of a document build: a scalar, a list, a mapping, or a reference to a
node that was given a name before.
-/

namespace StagedAlgebra.Yaml

/-- A node of a document. -/
inductive Node where
  /-- A scalar. -/
  | scalar (tag : Option Tag) (style : ScalarStyle) (text : String)
  /-- A list. -/
  | sequence (items : List Node)
  /-- Keys and values, in the order written. -/
  | mapping (entries : List (Node × Node))
  /-- A reference to the last node with a name. -/
  | reference (name : String)
  /-- A node with a name. -/
  | named (name : String) (node : Node)

namespace Node

/-- The node that stands where nothing is written. -/
def absent : Node := .scalar none .plain "~"

mutual

/-- Whether a node has a reference to a node around it, or to one with a name of `around`. -/
def refersOutward (around : List String) : Node → Bool
  | .scalar .. => false
  | .sequence items => itemsReferOutward around items
  | .mapping entries => entriesReferOutward around entries
  | .reference name => around.contains name
  | .named name node => node.refersOutward (name :: around)

/-- Whether an item of a list has a reference to a node around it. -/
def itemsReferOutward (around : List String) : List Node → Bool
  | [] => false
  | item :: items => item.refersOutward around || itemsReferOutward around items

/-- Whether a key or a value has a reference to a node around it. -/
def entriesReferOutward (around : List String) : List (Node × Node) → Bool
  | [] => false
  | (key, value) :: entries =>
    key.refersOutward around || value.refersOutward around || entriesReferOutward around entries

end

end Node

end StagedAlgebra.Yaml
