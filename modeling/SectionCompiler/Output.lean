import SectionCompiler.DocumentFile
/-! Writing a text to a file of its own. The folders above the file are made if they are
missing. -/

namespace SectionCompiler.Output

structure Fault where
  path : String
  cause : Disk.Fault
  deriving DecidableEq, Repr

def Fault.message (f : Fault) : String := DocumentFile.diskMessage f.path f.cause

def makeRoom (d : Disk) (path : String) : Except Fault Unit × Disk :=
  match Path.parent? path with
  | none => (.ok (), d)
  | some parent =>
    match d.makeFolders parent with
    | (.ok (), d) => (.ok (), d)
    | (.error cause, d) => (.error ⟨parent, cause⟩, d)

/-- Writes a text to a path. The folders that have been made stay when the file itself cannot be
written. -/
def write (d : Disk) (path text : String) : Except Fault Unit × Disk :=
  match makeRoom d path with
  | (.error fault, d) => (.error fault, d)
  | (.ok (), d) =>
    match d.write path text with
    | .ok d => (.ok (), d)
    | .error cause => (.error ⟨path, cause⟩, d)

end SectionCompiler.Output
