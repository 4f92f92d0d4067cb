import SectionCompiler.Settings
/-! The keys of a settings file, whatever its format. A format says how its values are taken for
texts, numbers, lists and records; the schema says which key holds which of them. Keys that the
schema does not know are noted and not looked at. -/

namespace SectionCompiler.Settings

/-- How the values of a format are taken for settings. -/
structure Reader (m : Type → Type) (ν : Type) where
  fail {α : Type} : m α
  /-- The value, unless it stands for none. -/
  present? : ν → m (Option ν)
  text : ν → m String
  truth : ν → m Bool
  natural : ν → m Nat
  /-- The one word that a value chooses. -/
  choice : ν → m String
  items : ν → m (List ν)
  /-- The values of a record by key, when the keys of the record are known in their order. -/
  record : List String → ν → m (List (String × ν))

abbrev KeyPath := List String

def tableKeys : List String := ["target", "sources", "start"]

def layerKeys : List String :=
  ["input_root", "output_path", "macro_root", "registry_file", "registry", "release", "on_error",
    "max_depth"]

def policyOf? : String → Option Policy
  | "abort" => some .abort
  | "skip" => some .skip
  | _ => none

namespace Reader

variable {m : Type → Type} [Monad m] {ν α : Type}

def optional (r : Reader m ν) (read : ν → m α) (entries : List (String × ν)) (key : String) :
    m (Option α) := do
  match entries.lookup key with
  | none => return none
  | some v =>
    match ← r.present? v with
    | none => return none
    | some v => return some (← read v)

def required (r : Reader m ν) (read : ν → m α) (entries : List (String × ν)) (key : String) :
    m α :=
  match entries.lookup key with
  | none => r.fail
  | some v => read v

def unknownKeys (known : List String) (entries : List (String × ν)) : List String :=
  (entries.map Prod.fst).filter fun key => key ∉ known

def table (r : Reader m ν) (v : ν) : m (RegistryTable × List String) := do
  let entries ← r.record tableKeys v
  let target ← r.required r.text entries "target"
  let sources ← r.required (fun v => do (← r.items v).mapM r.text) entries "sources"
  let start ← r.optional r.natural entries "start"
  return (⟨target, sources, start⟩, unknownKeys tableKeys entries)

def tables (r : Reader m ν) (v : ν) : m (List (RegistryTable × List String)) := do
  (← r.items v).mapM r.table

def policy (r : Reader m ν) (v : ν) : m Policy := do
  match policyOf? (← r.choice v) with
  | some p => return p
  | none => r.fail

/-- The ways to the unknown keys of registry tables, which are numbered from zero. -/
def unknownInTables (tables : List (List String)) : List KeyPath :=
  tables.zipIdx.flatMap fun (keys, n) => keys.map fun key => ["registry", toString n, key]

def unknownInLayer (entries : List (String × ν)) (tables : List (List String)) : List KeyPath :=
  entries.flatMap fun (key, _) =>
    if key = "registry" then unknownInTables tables
    else if key ∈ layerKeys then []
    else [[key]]

/-- The layer of a file, and the ways to the keys in it that are not known. -/
def layer (r : Reader m ν) (v : ν) : m (Layer × List KeyPath) := do
  let entries ← r.record layerKeys v
  let inputRoot ← r.optional r.text entries "input_root"
  let outputPath ← r.optional r.text entries "output_path"
  let templateRoot ← r.optional r.text entries "macro_root"
  let registryName ← r.optional r.text entries "registry_file"
  let tables ← r.optional r.tables entries "registry"
  let release ← r.optional r.truth entries "release"
  let policy ← r.optional r.policy entries "on_error"
  let maxDepth ← r.optional r.natural entries "max_depth"
  let registry := tables.map fun ts => ts.map Prod.fst
  let unknown := unknownInLayer entries ((tables.getD []).map Prod.snd)
  return (
    { inputRoot, outputPath, templateRoot, registryName, registry, release, policy, maxDepth },
    unknown)

end Reader

end SectionCompiler.Settings
