import StagedAlgebra.Record
import StagedAlgebra.Settings
import StagedAlgebra.Storage.FileTree

/-!
# Storage

Objects of bytes under paths, in memory or in a folder of a file tree. In memory a path is just a
key; the keys below a path are those that continue it with a slash. In a file tree a path leads
through folders, which are made when an object is written below them.

Reading never changes a storage. An operation that changes it gives the storage afterwards
together with its outcome, because a failed one may have been done in part.
-/

namespace StagedAlgebra

/-- Why an operation on stored objects fails. -/
inductive StorageFault where
  /-- There is no object in memory. -/
  | notFound (path : String)
  /-- A file cannot be read. -/
  | readFailed (path : String)
  /-- The folder of a file cannot be made. -/
  | parentFailed
  /-- A file cannot be written. -/
  | createFailed
  /-- A path cannot be removed. -/
  | deleteFailed
  /-- The file of a relation is missing. -/
  | relationMissing (path : String)
  /-- The output of a step is missing. -/
  | outputMissing (path : String)
  /-- An object is not text. -/
  | notText (path : String)
  /-- A line of an object is no record. -/
  | badLine (path : String) (number : Nat) (fault : RecordFault)
  /-- An environment that needs a data directory has none. -/
  | noDataDirectory (environment : Environment)
deriving DecidableEq

/-- The part of a message that stands for the reason why the file system refuses. -/
def systemReason : String := "<os error>"

/-- The part of a message that stands for the place where a text breaks the rules of UTF-8. -/
def encodingReason : String := "<utf8 error>"

/-- The message about a failed operation on stored objects. -/
def StorageFault.message : StorageFault → String
  | .notFound path => "storage error: path not found: " ++ path
  | .readFailed path => "storage error: read " ++ path ++ ": " ++ systemReason
  | .parentFailed => "storage error: mkparent: " ++ systemReason
  | .createFailed => "storage error: create: " ++ systemReason
  | .deleteFailed => "storage error: delete: " ++ systemReason
  | .relationMissing path => "storage error: relation file " ++ path ++ " not found"
  | .outputMissing path => "storage error: no output at " ++ path
  | .notText path => "record codec error: " ++ path ++ ": not utf-8: " ++ encodingReason
  | .badLine path number fault =>
    "record codec error: " ++ path ++ ":" ++ String.ofList (Text.natChars number) ++ ": "
      ++ fault.message
  | .noDataDirectory environment => "storage config error: " ++ needsDataDirectory environment

/-- Stored objects. -/
inductive Storage where
  /-- In memory. -/
  | memory (objects : Table ByteArray)
  /-- Below a folder of a file tree. -/
  | disk (root : String) (tree : FileTree)

/-- Whether a key continues a path with a slash. -/
def isBelow (path key : String) : Bool :=
  (path.toList ++ ['/']).isPrefixOf key.toList

/-- Whether a key is a path or below it. -/
def isAtOrBelow (path key : String) : Bool :=
  key == path || isBelow path key

/-- A path below the path of a folder. -/
def joinPath (root path : String) : String :=
  let path := Text.trimStartOf '/' path
  if root.isEmpty || root.toList.getLast? == some '/' then root ++ path else root ++ "/" ++ path

namespace Storage

/-- The storage that an environment uses: memory, or the data directory in a file tree. -/
def ofSettings (s : Settings) (tree : FileTree) : Except StorageFault Storage :=
  if s.environment = .mock then .ok (.memory .empty)
  else if Text.isBlankText s.dataDirectory then .error (.noDataDirectory s.environment)
  else .ok (.disk s.dataDirectory tree)

/-- The object at a path. -/
def read (s : Storage) (path : String) : Except StorageFault ByteArray :=
  match s with
  | .memory objects =>
    match objects.get? path with
    | some content => .ok content
    | none => .error (.notFound path)
  | .disk root tree =>
    match tree.content? (joinPath root path) with
    | some content => .ok content
    | none => .error (.readFailed (joinPath root path))

/-- The paths of the objects that start with a text in memory, or of the files at or below a path
in a file tree, ascending. -/
def list (s : Storage) (start : String) : List String :=
  match s with
  | .memory objects => objects.keys.filter fun key => start.toList.isPrefixOf key.toList
  | .disk root tree =>
    match tree.find? (joinPath root start) with
    | none => []
    | some (.file _) => [Text.trimEndOf '/' start]
    | some found =>
      (found.files.map fun names => "/".intercalate (pathNames start ++ names)).mergeSort
        fun a b => decide (a ≤ b)

/-- Whether there is an object at a path or below it. -/
def contains (s : Storage) (path : String) : Bool :=
  match s with
  | .memory objects => objects.keys.any (isAtOrBelow (Text.trimEndOf '/' path))
  | .disk root tree => tree.contains (joinPath root path)

/-- Writes an object, in place of the one that was there. -/
def write (s : Storage) (path : String) (content : ByteArray) :
    Except StorageFault Unit × Storage :=
  match s with
  | .memory objects => (.ok (), .memory (objects.insert path content))
  | .disk root tree =>
    let path := joinPath root path
    let folders := (pathNames path).dropLast
    if folders.any (·.toList.contains '\x00') then (.error .parentFailed, .disk root tree)
    else
      match tree.makeFolders [] folders with
      | (tree, false) => (.error .parentFailed, .disk root tree)
      | (tree, true) =>
        match tree.writeFile? path content with
        | some tree => (.ok (), .disk root tree)
        | none => (.error .createFailed, .disk root tree)

/-- Removes the object at a path and everything below it. -/
def delete (s : Storage) (path : String) : Except StorageFault Unit × Storage :=
  match s with
  | .memory objects =>
    let path := Text.trimEndOf '/' path
    (.ok (), .memory (objects.filter fun key _ => !isAtOrBelow path key))
  | .disk root tree =>
    match tree.remove (joinPath root path) with
    | (tree, true) => (.ok (), .disk root tree)
    | (tree, false) => (.error .deleteFailed, .disk root tree)

end Storage

end StagedAlgebra
