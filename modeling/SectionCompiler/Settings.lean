import SectionCompiler.Compilation
import SectionCompiler.Path
import SectionCompiler.Registry
/-! The settings of a build. They come in layers, in which any setting may be absent: an earlier
layer wins over a later one, and what no layer gives takes its default value, if it has one. -/

namespace SectionCompiler

structure Settings where
  /-- The folder of the documents. -/
  inputRoot : String
  /-- The file into which all documents are merged. -/
  outputPath : String
  /-- The folder of the template files. -/
  templateRoot : Option String
  /-- The name of the document of the registry tables. -/
  registryName : String
  registry : Option (List RegistryTable)
  /-- Whether the names of documents are left out of the output. -/
  release : Bool
  policy : Policy
  maxDepth : Nat
  deriving DecidableEq, Repr

namespace Settings

def defaultRegistryName : String := "registry.ini"

structure Layer where
  inputRoot : Option String := none
  outputPath : Option String := none
  templateRoot : Option String := none
  registryName : Option String := none
  registry : Option (List RegistryTable) := none
  release : Option Bool := none
  policy : Option Policy := none
  maxDepth : Option Nat := none
  deriving DecidableEq, Repr

/-- Two layers as one, in which the first wins. -/
def Layer.overlay (a b : Layer) : Layer where
  inputRoot := a.inputRoot <|> b.inputRoot
  outputPath := a.outputPath <|> b.outputPath
  templateRoot := a.templateRoot <|> b.templateRoot
  registryName := a.registryName <|> b.registryName
  registry := a.registry <|> b.registry
  release := a.release <|> b.release
  policy := a.policy <|> b.policy
  maxDepth := a.maxDepth <|> b.maxDepth

inductive Missing where
  | inputRoot
  | outputPath
  deriving DecidableEq, Repr

def Missing.key : Missing → String
  | inputRoot => "input_root"
  | outputPath => "output_path"

/-- The settings of a layer, with default values for what it leaves out. -/
def Layer.settings (l : Layer) : Except Missing Settings :=
  match l.inputRoot, l.outputPath with
  | none, _ => .error .inputRoot
  | some _, none => .error .outputPath
  | some inputRoot, some outputPath => .ok {
      inputRoot, outputPath
      templateRoot := l.templateRoot
      registryName := l.registryName.getD defaultRegistryName
      registry := l.registry
      release := l.release.getD false
      policy := l.policy.getD .abort
      maxDepth := l.maxDepth.getD Resolution.defaultDepth }

def anchored (s : Settings) (base : String) : Settings :=
  { s with
    inputRoot := Path.join base s.inputRoot
    outputPath := Path.join base s.outputPath
    templateRoot := s.templateRoot.map (Path.join base) }

def tables (s : Settings) : List RegistryTable := s.registry.getD []

end Settings

end SectionCompiler
