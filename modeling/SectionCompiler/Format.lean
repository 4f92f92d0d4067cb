import SectionCompiler.Path
/-! The formats of documents, told apart by the extension of a path. -/

namespace SectionCompiler

inductive Format where
  | ini
  | yaml
  | toml
  deriving DecidableEq, Repr

namespace Format

def name : Format → String
  | ini => "ini"
  | yaml => "yaml"
  | toml => "toml"

/-- The format of an extension, in any letter case of ASCII. -/
def ofExtension? (extension : String) : Option Format :=
  let lower := String.ofList (extension.toList.map Char.toLower)
  if lower = "ini" then some ini
  else if lower = "yaml" ∨ lower = "yml" then some yaml
  else if lower = "toml" then some toml
  else none

def ofPath? (path : String) : Option Format := (Path.extension? path).bind ofExtension?

end Format

end SectionCompiler
