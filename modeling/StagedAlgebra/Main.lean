import StagedAlgebra.CommandLine

/-!
# The program

The program reads the plan file and the data directory into a file tree, does what the arguments
ask for, and brings the data directory to the state of the file tree afterwards.
-/

namespace StagedAlgebra.Program

/-- The environment variables that settings are read from, as far as they are set. -/
def readVariables : IO (Table String) :=
  SettingsOverlay.variableNames.foldlM (fun t name => do
    match ← IO.getEnv name with
    | some value => return t.insert name value
    | none => return t) .empty

/-- A tree with the file at a path, if it can be read. -/
def loadFile (tree : FileTree) (path : String) : IO FileTree := do
  try
    return tree.addFile path (← IO.FS.readBinFile path)
  catch _ => return tree

/-- A tree with all files below a folder, if it can be read. -/
partial def loadFolder (tree : FileTree) (path : String) : IO FileTree := do
  try
    let entries ← (← IO.FS.realPath path).readDir
    entries.foldlM (fun tree entry => do
      let child := path ++ "/" ++ entry.fileName
      if ← entry.path.isDir then loadFolder tree child else loadFile tree child) tree
  catch _ => return tree

/-- The paths of the files below a folder of a tree. -/
def filesBelow (tree : FileTree) (path : String) : List String :=
  match tree.find? path with
  | some found => found.paths.map (path ++ "/" ++ ·)
  | none => []

/-- Removes a file, and the folder around it if that becomes empty. -/
def removeFile (path : String) : IO Unit := do
  try
    IO.FS.removeFile path
    IO.FS.removeDir ("/".intercalate (path.splitOn "/").dropLast)
  catch _ => return ()

/-- Writes a file and the folders around it. -/
def writeFile (path : String) (content : ByteArray) : IO Unit := do
  IO.FS.createDirAll ("/".intercalate (path.splitOn "/").dropLast)
  IO.FS.writeBinFile path content

/-- Brings a folder from the state of one tree to that of another. -/
def storeFolder (before after : FileTree) (path : String) : IO Unit := do
  let kept := filesBelow after path
  for file in filesBelow before path do
    unless kept.contains file do removeFile file
  for file in kept do
    match after.content? file with
    | some content =>
      unless (before.content? file).any (·.data == content.data) do writeFile file content
    | none => pure ()

/-- The data directory that a command works in. -/
def folderOf? (c : Command) (vars : Table String) (tree : FileTree) : Option String :=
  match c with
  | .act .run plan options =>
    match loadPipeline tree plan with
    | .ok pipeline =>
      let settings := runSettings vars pipeline options
      if settings.environment = .mock then none else some settings.dataDirectory
    | .error _ => none
  | _ => none

/-- Does what a command asks for; the result is the exit code. -/
def perform (c : Command) : IO UInt32 := do
  let vars ← readVariables
  let tree ← match c with
    | .act _ plan _ => loadFile .empty plan
    | .help _ => pure .empty
  let folder := folderOf? c vars tree
  let tree ← match folder with
    | some path => loadFolder tree path
    | none => pure tree
  let result := c.perform vars tree
  match folder with
  | some path => storeFolder tree result.tree path
  | none => pure ()
  IO.print result.output
  match result.fault with
  | none => return 0
  | some fault =>
    IO.eprintln ("Error: " ++ fault.message)
    return 1

end StagedAlgebra.Program

/-- The program. -/
def main (args : List String) : IO UInt32 := do
  match StagedAlgebra.Command.parse args with
  | .ok c => StagedAlgebra.Program.perform c
  | .error fault =>
    IO.eprintln fault.message
    return 2
