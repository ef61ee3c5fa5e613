import StagedAlgebra.Record.File
import StagedAlgebra.Stage

/-!
# Record stores

The places of relations and of the outputs of steps in a storage. A relation is one file. The
output of a step is one file too, or in the distributed environment a folder of parts, which are
read in ascending order of their paths.
-/

namespace StagedAlgebra

/-- The path of a relation. -/
def relationPath (relation : String) : String :=
  relation ++ ".json"

/-- The path of the output of a step. -/
def outputPath (environment : Environment) (step : StepId) : String :=
  match environment with
  | .distributed => "tmp" ++ step.digits
  | .standalone | .mock => "tmp" ++ step.digits ++ ".tmp"

/-- The path of a part of an output. -/
def partPath (folder : String) (index : Nat) : String :=
  folder ++ "/part-" ++ String.ofList (Text.padLeft '0' 5 (Text.natChars index))

namespace Storage

/-- The records of a relation. -/
def readRelation (s : Storage) (relation : String) : Except StorageFault (List Record) :=
  match s.read (relationPath relation) with
  | .error fault => .error fault
  | .ok content => decodeRecords (relationPath relation) content

/-- Stores the records of a relation. -/
def writeRelation (s : Storage) (relation : String) (records : List Record) :
    Except StorageFault Unit × Storage :=
  s.write (relationPath relation) (encodeRecords records)

/-- The records of files, in order. -/
def readParts (s : Storage) : List String → Except StorageFault (List Record)
  | [] => .ok []
  | path :: rest =>
    match s.read path with
    | .error fault => .error fault
    | .ok content =>
      match decodeRecords path content with
      | .error fault => .error fault
      | .ok records => (s.readParts rest).map (records ++ ·)

/-- The records that a step has put out. -/
def readOutput (s : Storage) (environment : Environment) (step : StepId) :
    Except StorageFault (List Record) :=
  let path := outputPath environment step
  match environment with
  | .distributed =>
    if s.contains path then s.readParts (s.list (path ++ "/")) else .error (.outputMissing path)
  | .standalone | .mock => s.readParts [path]

/-- Stores what a step puts out, in place of all that it put out before. -/
def writeOutput (s : Storage) (environment : Environment) (step : StepId)
    (records : List Record) : Except StorageFault String × Storage :=
  let path := outputPath environment step
  let content := encodeRecords records
  match environment with
  | .distributed =>
    match s.delete path with
    | (.error fault, s) => (.error fault, s)
    | (.ok (), s) =>
      let (outcome, s) := s.write (partPath path 0) content
      (outcome.map fun _ => path, s)
  | .standalone | .mock =>
    let (outcome, s) := s.write path content
    (outcome.map fun _ => path, s)

/-- Removes what a step has put out. -/
def removeOutput (s : Storage) (environment : Environment) (step : StepId) :
    Except StorageFault Unit × Storage :=
  s.delete (outputPath environment step)

end Storage

end StagedAlgebra
