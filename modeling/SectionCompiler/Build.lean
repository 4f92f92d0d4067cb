import SectionCompiler.Discovery
import SectionCompiler.Ini.Writer
import SectionCompiler.Output
import SectionCompiler.Settings
/-! Builds: the documents of a folder, compiled together with the document of the registry tables
and written as one INI file. -/

namespace SectionCompiler

/-- What a build works on. The folder of the documents and the output file may be unknown yet. -/
structure Build where
  inputRoot : Option String := none
  outputPath : Option String := none
  templateRoot : Option String := none
  registryName : String := Settings.defaultRegistryName
  registry : List RegistryTable := []
  release : Bool := false
  policy : Policy := .abort
  maxDepth : Nat := Resolution.defaultDepth
  deriving DecidableEq, Repr

namespace Build

def ofSettings (s : Settings) : Build where
  inputRoot := some s.inputRoot
  outputPath := some s.outputPath
  templateRoot := s.templateRoot
  registryName := s.registryName
  registry := s.tables
  release := s.release
  policy := s.policy
  maxDepth := s.maxDepth

inductive Fault where
  | inputRootRequired
  | outputPathRequired
  | load (fault : Discovery.LoadFault)
  | registry (fault : Registry.Fault)
  | compilation (fault : Compilation.Fault)
  | output (fault : Output.Fault)
  deriving DecidableEq, Repr

def requiredMessage (key : String) : String :=
  s!"{key} is required. Call .{key}() on the builder or set it in the config file."

def Fault.message : Fault → String
  | inputRootRequired => requiredMessage "input_root"
  | outputPathRequired => requiredMessage "output_path"
  | load fault => fault.message
  | registry fault => fault.message
  | compilation fault => fault.message
  | output fault => fault.message

structure Report where
  documents : Nat
  sections : Nat
  templates : Nat
  /-- The documents that have been left out. -/
  skipped : List String
  outputPath : Option String
  deriving DecidableEq, Repr

def Report.render (r : Report) : String :=
  let place := match r.outputPath with
    | some path => s!" into {path}"
    | none => ""
  let skipped := if r.skipped = [] then "" else "\nSkipped: " ++ String.intercalate ", " r.skipped
  s!"Compiled {r.documents} documents ({r.sections} sections, {r.templates} macros)" ++ place ++
    skipped

/-- The documents with the document of the registry tables, if there are any tables. It takes the
place of a document of its name. -/
def withRegistry (b : Build) (d : Disk) (library : Library) : Except Fault Library := do
  if b.registry = [] then return library
  let tables ← (Registry.build d library b.registry).mapError Fault.registry
  return library.insert (Name.normalize b.registryName) tables

def loadTemplates (b : Build) (d : Disk) : Except Fault (Option TemplateStore) :=
  match b.templateRoot with
  | none => .ok none
  | some root => ((Discovery.loadTemplates d root).mapError Fault.load).map some

/-- What the documents of a build are resolved against. -/
def sources (b : Build) (d : Disk) (inputRoot : String) : Except Fault Sources := do
  let documents ← (Discovery.loadDocuments d inputRoot b.policy).mapError Fault.load
  let templates ← b.loadTemplates d
  let library ← b.withRegistry d documents
  return ⟨library, templates, b.maxDepth⟩

def report (b : Build) (s : Sources) (r : Compilation.Result) : Report where
  documents := r.documents.length
  sections := (r.documents.flatMap fun (_, document) => document.entries).length
  templates := (s.templates.map Catalog.size).getD 0
  skipped := r.skipped
  outputPath := b.outputPath

/-- The text of the output file, and the summary of the build. -/
def compile (b : Build) (d : Disk) : Except Fault (String × Report) :=
  match b.inputRoot with
  | none => .error .inputRootRequired
  | some inputRoot => do
    let s ← b.sources d inputRoot
    let r ← (Compilation.compile s b.policy ∅).1.mapError Fault.compilation
    return (Ini.render r.documents b.release, b.report s r)

/-- Compiles and writes the output file. Nothing is written when the compilation fails. -/
def run (b : Build) (d : Disk) : Except Fault Report × Disk :=
  match b.outputPath with
  | none => (.error .outputPathRequired, d)
  | some path =>
    match b.compile d with
    | .error fault => (.error fault, d)
    | .ok (text, report) =>
      match Output.write d path text with
      | (.ok (), d) => (.ok report, d)
      | (.error fault, d) => (.error (.output fault), d)

end Build

end SectionCompiler
