import SectionCompiler.FileTree
import SectionCompiler.Path
/-! A disk: a file tree with a working directory, from which relative paths are followed. Every
segment of a path but the last has to lead into a folder, and `..` leads out of it. -/

namespace SectionCompiler

structure Disk where
  root : Folder
  /-- The way from the root to the working directory. -/
  here : List String
  deriving DecidableEq, Repr

namespace Disk

inductive Fault where
  | notFound
  | notFolder
  | isFolder
  | present
  | nameTooLong
  | notText
  | zeroInPath
  deriving DecidableEq, Repr

def Fault.message : Fault → String
  | notFound => "No such file or directory (os error 2)"
  | present => "File exists (os error 17)"
  | notFolder => "Not a directory (os error 20)"
  | isFolder => "Is a directory (os error 21)"
  | nameTooLong => "File name too long (os error 36)"
  | notText => "stream did not contain valid UTF-8"
  | zeroInPath => "file name contained an unexpected NUL byte"

/-- The greatest number of bytes in a name. -/
def maxName : Nat := 255

/-- Paths have fewer bytes than this. -/
def maxPath : Nat := 4096

/-- Where a path leads: the way from the root, and what stands there. -/
structure Place where
  way : List String
  node : Option Node

def step (root : Folder) (p : Place) (segment : List Char) : Except Fault Place :=
  match p.node with
  | none => .error .notFound
  | some (.file _) => .error .notFolder
  | some (.folder _) =>
    if segment = [] ∨ segment = ['.'] then .ok p
    else if segment = ['.', '.'] then .ok ⟨p.way.dropLast, root.find? p.way.dropLast⟩
    else if maxName < (String.ofList segment).utf8ByteSize then .error .nameTooLong
    else
      let way := p.way ++ [String.ofList segment]
      .ok ⟨way, root.find? way⟩

def origin (d : Disk) (path : String) : Place :=
  if Path.isAbsolute path then ⟨[], some (.folder d.root)⟩ else ⟨d.here, d.root.find? d.here⟩

def checkPath (path : String) : Except Fault Unit :=
  if '\x00' ∈ path.toList then .error .zeroInPath
  else if path = "" then .error .notFound
  else if maxPath ≤ path.utf8ByteSize then .error .nameTooLong
  else .ok ()

/-- Where a path leads. Only its last segment may lead to nothing. -/
def place (d : Disk) (path : String) : Except Fault Place := do
  checkPath path
  (path.toList.splitOn '/').foldlM (step d.root) (d.origin path)

/-- The ways that a path goes through if all its segments can be followed. -/
def waysOn (d : Disk) (path : String) : List (List String) :=
  (path.toList.splitOn '/').scanl
    (fun way segment =>
      if segment = [] ∨ segment = ['.'] then way
      else if segment = ['.', '.'] then way.dropLast
      else way ++ [String.ofList segment])
    (d.origin path).way

def node (d : Disk) (path : String) : Except Fault Node := do
  match (← d.place path).node with
  | some node => return node
  | none => throw .notFound

def isFile (d : Disk) (path : String) : Bool :=
  match d.node path with
  | .ok (.file _) => true
  | _ => false

def isFolder (d : Disk) (path : String) : Bool :=
  match d.node path with
  | .ok (.folder _) => true
  | _ => false

def has (d : Disk) (path : String) : Bool := (d.node path).isOk

def read (d : Disk) (path : String) : Except Fault String := do
  match ← d.node path with
  | .file (.text text) => return text
  | .file (.bytes _) => throw .notText
  | .folder _ => throw .isFolder

def herePath (d : Disk) : String := "/" ++ String.intercalate "/" d.here

def putAt (d : Disk) (node : Node) (way : List String) : Disk :=
  { d with root := d.root.putAt node way }

def withoutSlashes (path : String) : String :=
  String.ofList (path.toList.reverse.dropWhile (· = '/')).reverse

/-- Follows a path up to its last segment, which has to stand in a folder. -/
def reach (d : Disk) (path : String) : Except Fault Unit := do
  let _ ← ((path.toList.splitOn '/').dropLast ++ [[]]).foldlM (step d.root) (d.origin path)

/-- Writes a file, in place of the file that was there. A path that ends with a slash can only
mean a folder. -/
def write (d : Disk) (path text : String) : Except Fault Disk := do
  checkPath path
  let bare := withoutSlashes path
  if bare = path then
    let p ← d.place path
    match p.node with
    | some (.folder _) => throw .isFolder
    | _ => return d.putAt (.file (.text text)) p.way
  else
    d.reach bare
    throw .isFolder

def makeFolder (d : Disk) (path : String) : Except Fault Disk := do
  let p ← d.place path
  match p.node with
  | some _ => throw .present
  | none => return d.putAt (.folder .empty) p.way

/-- Makes a folder and the folders above it that are missing; `fuel` bounds how many. A folder
that is there is no fault. -/
def makeFoldersWithin (fuel : Nat) (d : Disk) (path : String) : Except Fault Unit × Disk :=
  if path = "" then (.ok (), d)
  else match d.makeFolder path with
    | .ok d => (.ok (), d)
    | .error .notFound =>
      match fuel, Path.parent? path with
      | fuel + 1, some parent =>
        match makeFoldersWithin fuel d parent with
        | (.error fault, d) => (.error fault, d)
        | (.ok (), d) =>
          match d.makeFolder path with
          | .ok d => (.ok (), d)
          | .error fault => if d.isFolder path then (.ok (), d) else (.error fault, d)
      | _, _ => (.error .notFound, d)
    | .error fault => if d.isFolder path then (.ok (), d) else (.error fault, d)

/-- Makes a folder and the folders above it that are missing. A path has no more folders above it
than characters. -/
def makeFolders (d : Disk) (path : String) : Except Fault Unit × Disk :=
  makeFoldersWithin path.length d path

end Disk

end SectionCompiler
