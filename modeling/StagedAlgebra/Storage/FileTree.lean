import StagedAlgebra.Text.Split

/-!
# File trees

A tree of folders and files, and the paths through it. A path is a text of names with slashes
between them; it starts at the root of the tree. The names `.` and `..` stand for the folder
reached so far and for the one above it, and a path that ends in a slash must lead to a folder.

## Implementation notes

A path is walked folder by folder. The walk ends in a folder that exists (`Place.folder`) or
stops before the last name, which may or may not exist (`Place.entry`).
-/

namespace StagedAlgebra

/-- A tree of folders and files. -/
inductive FileTree where
  /-- A file. -/
  | file (content : ByteArray)
  /-- A folder. -/
  | folder (entries : List (String × FileTree))

/-- Where a path leads. -/
inductive Place where
  /-- To a folder that exists, given by the names on the way to it, the last one first. -/
  | folder (way : List String)
  /-- To a name in a folder that exists; `slash` tells whether a slash follows the name. -/
  | entry (way : List String) (name : String) (slash : Bool)

/-- The names of a path, with the empty ones that adjacent slashes make. -/
def pathSegments (path : String) : List String :=
  (path.toList.splitOn '/').map String.ofList

/-- The names of a path that are not just slashes and dots. -/
def pathNames (path : String) : List String :=
  (pathSegments path).filter fun s => s != "" && s != "."

/-- Whether a file may have a name. -/
def isFileName (name : String) : Bool :=
  decide (name.utf8ByteSize ≤ 255) && !name.toList.contains '\x00'

namespace FileTree

/-- A tree without files. -/
def empty : FileTree := .folder []

/-- The entry with a name. -/
def entryNamed? (name : String) : List (String × FileTree) → Option FileTree
  | [] => none
  | (n, t) :: rest => if n = name then some t else entryNamed? name rest

/-- Puts an entry in place of the one with its name, or at the end. -/
def putEntry (name : String) (tree : FileTree) : List (String × FileTree) → List (String × FileTree)
  | [] => [(name, tree)]
  | (n, t) :: rest => if n = name then (name, tree) :: rest else (n, t) :: putEntry name tree rest

/-- The part of a tree that names lead to. -/
def at? (t : FileTree) : List String → Option FileTree
  | [] => some t
  | name :: rest =>
    match t with
    | .file _ => none
    | .folder entries =>
      match entryNamed? name entries with
      | some child => child.at? rest
      | none => none

/-- Changes the folder that names lead to; without one, nothing changes. -/
def updateFolder (change : List (String × FileTree) → List (String × FileTree)) (t : FileTree) :
    List String → FileTree
  | [] =>
    match t with
    | .folder entries => .folder (change entries)
    | .file content => .file content
  | name :: rest =>
    match t with
    | .file content => .file content
    | .folder entries =>
      match entryNamed? name entries with
      | some child => .folder (putEntry name (child.updateFolder change rest) entries)
      | none => .folder entries

/-- Whether a part of a tree is a folder. -/
def isFolder : FileTree → Bool
  | .folder _ => true
  | .file _ => false

/-- Where a path leads from the folder with the given way on. -/
def walk (t : FileTree) (way : List String) : List String → Option Place
  | [] => some (.folder way)
  | name :: rest =>
    if name = "" ∨ name = "." then t.walk way rest
    else if name = ".." then t.walk way.tail rest
    else if !isFileName name then none
    else if rest.all (· == "") then some (.entry way name (!rest.isEmpty))
    else
      match t.at? (name :: way).reverse with
      | some (.folder _) => t.walk (name :: way) rest
      | _ => none

/-- Where a path leads; a path may not be longer than 4095 bytes. -/
def place? (t : FileTree) (path : String) : Option Place :=
  if path.utf8ByteSize ≤ 4095 then t.walk [] (pathSegments path) else none

/-- What is found at the end of a path. -/
def find? (t : FileTree) (path : String) : Option FileTree :=
  match t.place? path with
  | none => none
  | some (.folder way) => t.at? way.reverse
  | some (.entry way name slash) =>
    match t.at? (name :: way).reverse with
    | some (.file content) => if slash then none else some (.file content)
    | other => other

/-- Whether a path leads to a file or a folder. -/
def contains (t : FileTree) (path : String) : Bool :=
  (t.find? path).isSome

/-- Whether a path leads to a folder. -/
def hasFolder (t : FileTree) (path : String) : Bool :=
  match t.find? path with
  | some found => found.isFolder
  | none => false

/-- The content of the file that a path leads to. -/
def content? (t : FileTree) (path : String) : Option ByteArray :=
  match t.find? path with
  | some (.file content) => some content
  | _ => none

/-- Makes a folder where nothing is yet. -/
def makeFolder? (t : FileTree) (path : String) : Option FileTree :=
  match t.place? path with
  | some (.entry way name _) =>
    match t.at? (name :: way).reverse with
    | none => some (t.updateFolder (putEntry name (.folder [])) way.reverse)
    | some _ => none
  | _ => none

/-- Makes every folder on the way through `names` that is not there yet, from the folder with
the path `done` on; the second part tells whether all are there in the end. -/
def makeFolders (t : FileTree) (done : List String) : List String → FileTree × Bool
  | [] => (t, true)
  | name :: rest =>
    let names := done ++ [name]
    let path := "/".intercalate names
    if t.hasFolder path then t.makeFolders names rest
    else
      match t.makeFolder? path with
      | some t => t.makeFolders names rest
      | none => (t, false)

/-- Writes a file, in place of the one that was there; its folder must exist. -/
def writeFile? (t : FileTree) (path : String) (content : ByteArray) : Option FileTree :=
  match t.place? path with
  | some (.entry way name false) =>
    match t.at? (name :: way).reverse with
    | some (.folder _) => none
    | _ => some (t.updateFolder (putEntry name (.file content)) way.reverse)
  | _ => none

/-- A tree with a file, for which folders are made as far as they can be. -/
def addFile (t : FileTree) (path : String) (content : ByteArray) : FileTree :=
  let t := (t.makeFolders [] (pathNames path).dropLast).1
  (t.writeFile? path content).getD t

/-- A tree without the entry of a folder. -/
def withoutEntry (t : FileTree) (way : List String) (name : String) : FileTree :=
  t.updateFolder (fun entries => entries.filter (·.1 != name)) way.reverse

/-- Removes what a path leads to, with everything below; the second part tells whether nothing is
left of it. A folder that is not reached by its name is emptied but stays. -/
def remove (t : FileTree) (path : String) : FileTree × Bool :=
  if t.contains path then
    match t.place? path with
    | some (.entry way name _) => (t.withoutEntry way name, true)
    | some (.folder way) => (t.updateFolder (fun _ => []) way.reverse, false)
    | none => (t, true)
  else (t, true)

mutual

/-- The paths of all files, as lists of names. -/
def files : FileTree → List (List String)
  | .file _ => [[]]
  | .folder entries => filesOf entries

/-- The paths of all files of the entries of a folder. -/
def filesOf : List (String × FileTree) → List (List String)
  | [] => []
  | (name, tree) :: rest => (files tree).map (name :: ·) ++ filesOf rest

end

/-- The paths of all files, ascending. -/
def paths (t : FileTree) : List String :=
  (t.files.map fun names => "/".intercalate names).mergeSort fun a b => decide (a ≤ b)

end FileTree

end StagedAlgebra
