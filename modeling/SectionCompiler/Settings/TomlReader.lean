import SectionCompiler.Settings.Schema
import SectionCompiler.Toml.Parse
/-! Settings in TOML. Every value that is given counts, and a number is a whole one that is not
negative. -/

namespace SectionCompiler.Settings

namespace TomlReader

def text : Toml.Value → Option String
  | .string t => some t
  | _ => none

def truth : Toml.Value → Option Bool
  | .boolean b => some b
  | _ => none

def natural : Toml.Value → Option Nat
  | .integer (.ofNat n) => some n
  | _ => none

def choice : Toml.Value → Option String
  | .string t => some t
  | .table [(t, .table [])] => some t
  | .table [(t, .array [])] => some t
  | _ => none

def items : Toml.Value → Option (List Toml.Value)
  | .array vs => some vs
  | _ => none

/-- The entries of a table. An array gives the values of the keys in their order. -/
def record (keys : List String) : Toml.Value → Option (List (String × Toml.Value))
  | .table entries => some entries
  | .array vs => some (keys.zip vs)
  | _ => none

def reader : Reader Option Toml.Value where
  fail := none
  present? v := some (some v)
  text := text
  truth := truth
  natural := natural
  choice := choice
  items := items
  record := record

end TomlReader

def ofToml? (content : String) : Option (Layer × List KeyPath) := do
  TomlReader.reader.layer (.table (← Toml.parse? content))

end SectionCompiler.Settings
