import StagedAlgebra.Text.Blank
import StagedAlgebra.Text.Split

/-!
# Attribute references

An attribute is named alone or together with the relation that it belongs to, as in `Person.age`.
A reference is read from text with the blanks around it and around its dot removed; a text with
more than one dot, or with nothing on one side of it, is no reference.

In a record the value of an attribute stands under a key, the relation's label and the
attribute's name joined by a dot.
-/

namespace StagedAlgebra

/-- A reference to an attribute, with or without the relation it belongs to. -/
structure Attribute where
  /-- The relation, if the reference names one. -/
  relation : Option String
  /-- The name of the attribute. -/
  name : String
deriving DecidableEq

/-- Why a text is no attribute reference. -/
inductive AttributeFault where
  /-- There is nothing but blanks. -/
  | empty
  /-- The trimmed text is misshapen around its dots. -/
  | malformed (text : String)
deriving DecidableEq

/-- The message about a text that is no attribute reference. -/
def AttributeFault.message : AttributeFault → String
  | .empty => "Planning error: empty attribute reference"
  | .malformed text => "Planning error: malformed attribute reference '" ++ text ++ "'"

/-- The key of an attribute under a label. -/
def attributeKey (label name : String) : String :=
  label ++ "." ++ name

namespace Attribute

/-- The attribute of a relation. -/
def qualified (relation name : String) : Attribute :=
  ⟨some relation, name⟩

/-- An attribute whose relation is left open. -/
def bare (name : String) : Attribute :=
  ⟨none, name⟩

/-- Whether the reference names a relation. -/
def isQualified (a : Attribute) : Bool :=
  a.relation.isSome

/-- The text of a reference. -/
def text (a : Attribute) : String :=
  match a.relation with
  | some relation => attributeKey relation a.name
  | none => a.name

/-- The key of a reference that names its relation. -/
def qualifiedKey? (a : Attribute) : Option String :=
  a.relation.map fun relation => attributeKey relation a.name

/-- The key of a reference, with `label` in place of a relation that is left open. -/
def keyUnder (a : Attribute) (label : String) : String :=
  attributeKey (a.relation.getD label) a.name

/-- Reads a reference. -/
def parse (s : String) : Except AttributeFault Attribute :=
  let cs := Text.trimChars s.toList
  match Text.splitOnce '.' cs with
  | some (before, after) =>
    let relation := Text.trimChars before
    let name := Text.trimChars after
    if relation.isEmpty || name.isEmpty || name.contains '.' then
      .error (.malformed (String.ofList cs))
    else .ok (qualified (String.ofList relation) (String.ofList name))
  | none => if cs.isEmpty then .error .empty else .ok (bare (String.ofList cs))

/-- The reference that a text is. -/
def parse? (s : String) : Option Attribute :=
  (parse s).toOption

end Attribute

end StagedAlgebra
