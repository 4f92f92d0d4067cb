import SectionCompiler.DocumentFile
import SectionCompiler.Glob
/-! Registry tables: sections that number the headings of other documents. A source of a table is
a pattern for document names, a document name, or a path of a file, in this order; a file that has
no document adds nothing. -/

namespace SectionCompiler

structure RegistryTable where
  /-- The heading of the table. -/
  target : String
  sources : List String
  /-- The first number, one if it is not given. -/
  start : Option Nat
  deriving DecidableEq, Repr

namespace Registry

structure Fault where
  pattern : String
  cause : Glob.Fault
  deriving DecidableEq, Repr

def Fault.message (f : Fault) : String :=
  s!"Invalid registry pattern '{f.pattern}': {f.cause.message}"

/-- The headings of the documents whose names match a pattern, in name order. -/
def headingsOfGlob (g : Glob) (library : Library) : List String :=
  (library.entries.filter fun (name, _) => g.matchesName name).flatMap fun (_, d) => d.keys

def headings (disk : Disk) (library : Library) (source : String) : Except Fault (List String) :=
  if Glob.isPattern source then
    match Glob.parse source with
    | .ok g => .ok (headingsOfGlob g library)
    | .error cause => .error ⟨source, cause⟩
  else match library.get? source with
    | some document => .ok document.keys
    | none =>
      match DocumentFile.read disk source with
      | .ok document => .ok document.keys
      | .error _ => .ok []

/-- Headings under consecutive numbers. They are meant for numbers below 2^64, the ones a counter of
64 bits has; past the last of these they simply go on. -/
def numbered (start : Nat) : List String → List Entry
  | [] => []
  | heading :: rest => (toString start, .scalar heading) :: numbered (start + 1) rest

def tableSection (disk : Disk) (library : Library) (t : RegistryTable) :
    Except Fault Section := do
  let found ← t.sources.mapM (headings disk library)
  return ⟨numbered (t.start.getD 1) found.flatten⟩

/-- The document of the tables. Of two tables with one heading the later one stays, in the place
of the earlier. -/
def build (disk : Disk) (library : Library) (tables : List RegistryTable) :
    Except Fault Document := do
  let sections ← tables.mapM fun t => do return (t.target, ← tableSection disk library t)
  return Keyed.ofList sections

end Registry

end SectionCompiler
