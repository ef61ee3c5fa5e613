import StagedAlgebra.Record

/-!
# Looking up attributes in records

An attribute is sought in a record under the key that it names, then under the label of the
record, and a bare name at last under the one key that ends in it. The last step serves records
of joins, whose label is not that of any of their keys.
-/

namespace StagedAlgebra

/-- Why an operator cannot go on. -/
inductive OperatorFault where
  /-- A record has no value for an attribute, or for none of several. -/
  | unresolved (reference label : String)
  /-- A condition is not a predicate. -/
  | notPredicate (condition : Condition)
  /-- An equality does not stand between operands. -/
  | notOperands (left right : Condition)
  /-- A conjunct of a join does not equate two attributes. -/
  | notAttributePair (conjunct : Condition)
  /-- A renaming gives two values one key. -/
  | collision (label newLabel key : String)
  /-- A join meets a record of neither side. -/
  | strangeLabel (key label left right : String)
  /-- A failure was asked for. -/
  | injected
deriving DecidableEq

/-- The message about an operator that cannot go on. -/
def OperatorFault.message : OperatorFault → String
  | .unresolved reference label =>
    "cannot resolve attribute '" ++ reference ++ "' in record labelled '" ++ label ++ "'"
  | .notPredicate c => "malformed condition: '" ++ c.text ++ "' is not a predicate"
  | .notOperands left right =>
    "malformed condition: equality needs attribute or literal operands: "
      ++ left.text ++ " = " ++ right.text
  | .notAttributePair c => "malformed condition: join predicate '" ++ c.text ++ "' is not attr = attr"
  | .collision label newLabel key =>
    "execution error: renaming '" ++ label ++ "' to '" ++ newLabel ++ "' collides on '" ++ key ++ "'"
  | .strangeLabel key label left right =>
    "execution error: join key " ++ key ++ " got a record labelled '" ++ label
      ++ "', expected '" ++ left ++ "' or '" ++ right ++ "'"
  | .injected => "execution error: injected failure"

/-- Whether a key is a bare name, or ends in a dot and the name. -/
def keyEndsIn (name key : String) : Bool :=
  key == name || ('.' :: name.toList).isSuffixOf key.toList

namespace Record

/-- The entry under a key. -/
def entry? (r : Record) (key : String) : Option (String × Scalar) :=
  (r.tuple.get? key).map (key, ·)

/-- The only entry whose key ends in a name. -/
def entryEndingIn? (r : Record) (name : String) : Option (String × Scalar) :=
  match r.tuple.entries.filter fun e => keyEndsIn name e.1 with
  | [e] => some e
  | _ => none

/-- The entry that an attribute refers to. -/
def lookup? (r : Record) (a : Attribute) : Option (String × Scalar) :=
  let underLabel := r.entry? (attributeKey r.label a.name)
  match a.qualifiedKey? with
  | some key => (r.entry? key).or underLabel
  | none => underLabel.or (r.entryEndingIn? a.name)

/-- The entry that an attribute must refer to. -/
def lookup (r : Record) (a : Attribute) : Except OperatorFault (String × Scalar) :=
  match r.lookup? a with
  | some e => .ok e
  | none => .error (.unresolved a.text r.label)

end Record

end StagedAlgebra
