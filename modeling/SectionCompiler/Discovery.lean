import SectionCompiler.Compilation
import SectionCompiler.DocumentFile
/-! Finding the documents under a folder. A file or folder whose name begins with an at sign is
private and is passed over with all that it holds; the folder in which the search begins is
searched whatever its name is. -/

namespace SectionCompiler.Discovery

def isPrivate (name : String) : Bool := name.toList.head? = some '@'

def publicFiles : Folder → List (List String)
  | .empty => []
  | .file name _ others =>
    if isPrivate name then publicFiles others else [name] :: publicFiles others
  | .folder name inside others =>
    if isPrivate name then publicFiles others
    else (publicFiles inside).map (name :: ·) ++ publicFiles others

def documentName (path : String) : String :=
  Name.normalize (String.intercalate "/" ((Path.components path).map Component.text))

structure Found where
  name : String
  path : String
  deriving DecidableEq, Repr

/-- Names come first in the order, and paths second. -/
def Found.le (a b : Found) : Bool :=
  if a.name = b.name then Path.le a.path b.path else a.name ≤ b.name

/-- The document of a file, when its format is known. -/
def foundAt (root : String) (way : List String) : Option Found :=
  let path := way.foldl Path.join root
  if (Format.ofPath? path).isSome then
    some ⟨documentName (String.intercalate "/" way), path⟩
  else none

structure Fault where
  root : String
  cause : Disk.Fault
  deriving DecidableEq, Repr

def Fault.message (f : Fault) : String :=
  s!"Failed to walk {f.root}: IO error for operation on {f.root}: {f.cause.message}"

/-- The documents below a folder in order. A file in place of the folder is the only document. -/
def discover (d : Disk) (root : String) : Except Fault (List Found) :=
  match d.node root with
  | .error cause => .error ⟨root, cause⟩
  | .ok (.file _) => .ok (foundAt root []).toList
  | .ok (.folder inside) =>
    .ok (((publicFiles inside).filterMap (foundAt root)).mergeSort Found.le)

inductive LoadFault where
  | discovery (fault : Fault)
  | file (fault : DocumentFile.Fault)
  | template (fault : Template.Malformed)
  deriving DecidableEq, Repr

def LoadFault.message : LoadFault → String
  | discovery fault => fault.message
  | file fault => fault.message
  | template fault => fault.message

def loadFound (d : Disk) (policy : Policy) : List Found → Library → Except LoadFault Library
  | [], library => .ok library
  | f :: rest, library =>
    match DocumentFile.read d f.path, policy with
    | .ok document, _ => loadFound d policy rest (library.insert f.name document)
    | .error _, .skip => loadFound d policy rest library
    | .error fault, .abort => .error (.file fault)

/-- Reads all documents below a folder. When failures are skipped, a document that cannot be read
is left out. -/
def loadDocuments (d : Disk) (root : String) (policy : Policy) : Except LoadFault Library := do
  let found ← (discover d root).mapError LoadFault.discovery
  loadFound d policy found ∅

def loadFoundTemplates (d : Disk) : List Found → TemplateStore → Except LoadFault TemplateStore
  | [], store => .ok store
  | f :: rest, store =>
    match DocumentFile.read d f.path with
    | .error fault => .error (.file fault)
    | .ok file =>
      match store.addFile (Name.stem f.name) file with
      | (.error fault, _) => .error (.template fault)
      | (.ok (), store) => loadFoundTemplates d rest store

def loadTemplates (d : Disk) (root : String) : Except LoadFault TemplateStore := do
  let found ← (discover d root).mapError LoadFault.discovery
  loadFoundTemplates d found ∅

end SectionCompiler.Discovery
