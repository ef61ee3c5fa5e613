import StagedAlgebra.Condition.Evaluation
import StagedAlgebra.Operator.Join

/-!
# Operators on records

An operator maps each record to records under shuffle keys. Projections and joins then reduce the
records of each key; selections and renamings are done after the mapping.

`Operator.run` is the whole of it: map every record, bring the results together by key in
ascending order of the keys, and reduce each group. Records of one key keep the order in which
they came.
-/

namespace StagedAlgebra

/-- What a stage does to records. -/
inductive Operator where
  /-- Keeps the records that satisfy a condition. -/
  | select (condition : Condition)
  /-- Keeps some attributes, and each tuple once. -/
  | project (attributes : List Attribute)
  /-- Changes the label of records and of their keys. -/
  | rename (newLabel : String)
  /-- Pairs records by key. -/
  | join (join : KeyJoin)
deriving DecidableEq

/-- A key with another label: what follows its first dot, or all of it, under the label. -/
def rekey (newLabel key : String) : String :=
  match Text.splitOnce '.' key.toList with
  | some (_, name) => attributeKey newLabel (String.ofList name)
  | none => attributeKey newLabel key

/-- The entries of a tuple under another label, put into `done` one by one. -/
def renameEntries (label newLabel : String) (done : Tuple) :
    List (String × Scalar) → Except OperatorFault Tuple
  | [] => .ok done
  | (key, value) :: rest =>
    let renamed := rekey newLabel key
    if done.contains renamed then .error (.collision label newLabel renamed)
    else renameEntries label newLabel (done.insert renamed value) rest

/-- The attributes of a record put into `done` one by one. -/
def projectEntries (r : Record) (done : Tuple) : List Attribute → Except OperatorFault Tuple
  | [] => .ok done
  | a :: rest =>
    match r.lookup a with
    | .error fault => .error fault
    | .ok (key, value) => projectEntries r (done.insert key value) rest

/-- Files a record under a key, after those that are already there. -/
def fileUnder (groups : Table (List Record)) (entry : String × Record) : Table (List Record) :=
  groups.insert entry.1 ((groups.get? entry.1).getD [] ++ [entry.2])

namespace Operator

/-- The name of an operator. -/
def name : Operator → String
  | .select _ => "select"
  | .project _ => "project"
  | .rename _ => "rename"
  | .join _ => "join_repartition"

/-- Whether the records of a key are reduced. -/
def reduces : Operator → Bool
  | .select _ | .rename _ => false
  | .project _ | .join _ => true

/-- What an operator makes of one record, under shuffle keys. -/
def map (op : Operator) (r : Record) : Except OperatorFault (List (String × Record)) :=
  match op with
  | .select c => (c.holdsIn r).map fun holds => if holds then [("", r)] else []
  | .project attributes =>
    (projectEntries r .empty attributes).map fun t => [(Tuple.text t, ⟨r.label, t⟩)]
  | .rename newLabel =>
    (renameEntries r.label newLabel .empty r.tuple.entries).map fun t => [("", ⟨newLabel, t⟩)]
  | .join j => j.file r

/-- What an operator makes of the records of one key. -/
def reduce (op : Operator) (key : String) (records : List Record) :
    Except OperatorFault (List Record) :=
  match op with
  | .select _ | .rename _ => .ok records
  | .project _ => .ok (records.take 1)
  | .join j => j.pair key records

/-- Records brought together by key. -/
def group (entries : List (String × Record)) : Table (List Record) :=
  entries.foldl fileUnder .empty

/-- What an operator makes of a list of records. -/
def run (op : Operator) (records : List Record) : Except OperatorFault (List Record) :=
  match records.mapM op.map with
  | .error fault => .error fault
  | .ok mapped =>
    if op.reduces then
      ((group mapped.flatten).entries.mapM fun (key, values) => op.reduce key values).map
        List.flatten
    else .ok (mapped.flatten.map (·.2))

end Operator

end StagedAlgebra
