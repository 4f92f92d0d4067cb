import SectionCompiler.CommandLine.Usage
import SectionCompiler.FileTree.Change
/-! The program. It takes a snapshot of the files that the action of its command line is about,
performs the action on the snapshot, and brings the files up to date. -/

namespace SectionCompiler.Program

def pathOf (way : List String) : String := "/" ++ String.intercalate "/" way

/-- Adds what stands at a way to a tree, and of a folder that is searched all files of a known
format. -/
partial def look (deep : Bool) (way : List String) (tree : Folder) : IO Folder := do
  let path := (← IO.currentDir) / pathOf way
  match (← path.metadata.toBaseIO) with
  | .error _ => return tree
  | .ok found =>
    if found.type == .file then
      return tree.putAt (.file (.ofBytes (← IO.FS.readBinFile path))) way
    let mut tree := if tree.hasFolder way then tree else tree.putAt (.folder .empty) way
    if deep then
      for entry in (← path.readDir) do
        let inside := (← entry.path.symlinkMetadata).type == .dir
        if inside || (Format.ofPath? entry.fileName).isSome then
          tree ← look inside (way ++ [entry.fileName]) tree
    return tree

/-- The working directory with the settings files of the folders above it, and the marks of
projects. -/
def surroundings : IO Disk := do
  let here := (← IO.currentDir).components.filter fun name => name ≠ "" && name ≠ "/"
  let mut tree ← look false here .empty
  for folder in here.scanl (fun way name => way ++ [name]) [] do
    for name in Settings.projectMark :: Settings.fileNames do
      tree ← look false (folder ++ [name]) tree
  return ⟨tree, here⟩

def lookAt (d : Disk) (paths : List String) : IO Disk := do
  let mut tree := d.root
  for path in paths do
    let ways := d.waysOn path
    for way in ways.dropLast do
      tree ← look false way tree
    for way in ways.getLast?.toList do
      tree ← look true way tree
  return { d with root := tree }

def environment : IO Environment := do
  return {
    inputRoot := ← IO.getEnv "IW_INPUT_ROOT"
    outputPath := ← IO.getEnv "IW_OUTPUT_PATH"
    templateRoot := ← IO.getEnv "IW_MACRO_ROOT"
    release := ← IO.getEnv "IW_RELEASE" }

def apply : Change → IO Unit
  | .makeFolder way => IO.FS.createDirAll (pathOf way)
  | .writeFile way (.text content) => IO.FS.writeFile (pathOf way) content
  | .writeFile way (.bytes content) => IO.FS.writeBinFile (pathOf way) ⟨content.toArray⟩

def complaint (fault : Action.Fault) : List String :=
  let keys := match fault with
    | .settings (.unknownKeys keys) => keys.map fun key => "  " ++ key.message
    | _ => []
  ("Error: " ++ fault.message) :: keys

def runAction (action : Action) : IO UInt32 := do
  let given ← environment
  let near ← surroundings
  -- The settings file names further paths.
  let known ← lookAt near (action.paths given near)
  let before ← lookAt known (action.paths given known)
  let (result, after) := action.perform given before
  for change in before.root.changes after.root do
    apply change
  match result with
  | .ok outcome =>
    IO.println outcome.render
    return 0
  | .error fault =>
    for line in complaint fault do
      IO.eprintln line
    return 1

end SectionCompiler.Program

open SectionCompiler in
def main (args : List String) : IO UInt32 := do
  match CommandLine.parse args with
  | .ok invocation => Program.runAction invocation.action
  | .error refusal =>
    if refusal.isAnswer then
      IO.println refusal.message
      return 0
    IO.eprintln refusal.message
    return 2
