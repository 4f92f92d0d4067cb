import SectionCompiler.DocumentFile
import SectionCompiler.Settings.Environment
import SectionCompiler.Settings.KeyLine
import SectionCompiler.Settings.TomlReader
import SectionCompiler.Settings.YamlReader
/-! Loading the settings of a build from a file. Environment variables win over the file, and
relative paths are taken from the folder of the file. A strict load refuses keys that are not
known. -/

namespace SectionCompiler.Settings

inductive Language where
  | toml
  | yaml
  deriving DecidableEq, Repr

namespace Language

def read? : Language → String → Option (Layer × List KeyPath)
  | toml => ofToml?
  | yaml => ofYaml?

def line : Language → List Char → List Char → Nat
  | toml => tomlLine
  | yaml => yamlLine

def ofExtension? : String → Option Language
  | "toml" => some toml
  | "yaml" => some yaml
  | "yml" => some yaml
  | _ => none

/-- The language in which a file is checked: YAML when its extension says so, in any letter case
of ASCII, and TOML otherwise. -/
def forCheck (path : String) : Language :=
  let extension := (Path.extension? path).map fun e => String.ofList (e.toList.map Char.toLower)
  if extension = some "yaml" ∨ extension = some "yml" then yaml else toml

end Language

structure UnknownKey where
  key : String
  path : String
  line : Nat
  deriving DecidableEq, Repr

def UnknownKey.message (k : UnknownKey) : String :=
  s!"Unknown key '{k.key}' in {k.path} (line {k.line})"

inductive Fault where
  | disk (path : String) (cause : Disk.Fault)
  /-- The file is not well formed, or a setting in it has a wrong type. -/
  | malformed (path : String)
  | unknownKeys (keys : List UnknownKey)
  | environment (fault : Environment.Fault)
  | noExtension (path : String)
  | unknownExtension (path : String)
  /-- As `malformed`, when nothing has been checked before. -/
  | unreadable (path : String)
  | missing (setting : Missing)
  deriving DecidableEq, Repr

def configurationMessage (text : String) : String := "Configuration error: " ++ text

def Fault.message : Fault → String
  | disk path cause => DocumentFile.diskMessage path cause
  | malformed path => DocumentFile.parseMessage path "not well formed"
  | unknownKeys _ => "Unknown keys in config file"
  | environment fault => configurationMessage fault.message
  | noExtension path => configurationMessage
      s!"cannot guess configuration file format due to missing file extension in '{path}'"
  | unknownExtension path => configurationMessage
      s!"unknown configuration file format/extension: '{path}'"
  | unreadable path => configurationMessage
      s!"failed to deserialize configuration from file '{path}'"
  | missing setting => configurationMessage
      s!"required configuration value is missing: '{setting.key}'"

def unknownKey (l : Language) (path content : String) (way : KeyPath) : UnknownKey :=
  let key := dotted way
  ⟨String.ofList key, path, l.line content.toList key⟩

/-- Refuses a text with unknown keys. A blank text has none. -/
def check (path content : String) : Except Fault Unit :=
  if Text.trim content.toList = [] then .ok ()
  else
    let l := Language.forCheck path
    match l.read? content with
    | none => .error (.malformed path)
    | some (_, []) => .ok ()
    | some (_, way :: ways) => .error (.unknownKeys ((way :: ways).map (unknownKey l path content)))

def fileLayer (path content : String) : Except Fault Layer :=
  match Path.extension? path with
  | none => .error (.noExtension path)
  | some extension =>
    match Language.ofExtension? extension with
    | none => .error (.unknownExtension path)
    | some l =>
      match l.read? content with
      | none => .error (.unreadable path)
      | some (layer, _) => .ok layer

def ofContent (e : Environment) (path content : String) (strict : Bool) :
    Except Fault Settings := do
  if strict then check path content
  let first ← e.layer.mapError Fault.environment
  let second ← fileLayer path content
  let settings ← (first.overlay second).settings.mapError Fault.missing
  return settings.anchored ((Path.parent? path).getD "")

def load (d : Disk) (e : Environment) (path : String) (strict : Bool) : Except Fault Settings := do
  let content ← (d.read path).mapError (Fault.disk path)
  ofContent e path content strict

end SectionCompiler.Settings
