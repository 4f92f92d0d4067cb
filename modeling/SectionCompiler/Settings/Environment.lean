import SectionCompiler.Settings
import SectionCompiler.Text.Blank
/-! Settings from environment variables. -/

namespace SectionCompiler

structure Environment where
  inputRoot : Option String := none
  outputPath : Option String := none
  templateRoot : Option String := none
  release : Option String := none
  deriving DecidableEq, Repr

namespace Environment

structure Fault where
  word : String
  deriving DecidableEq, Repr

def Fault.message (f : Fault) : String :=
  "failed to deserialize value `BuildConfig::release` from environment variable `IW_RELEASE`: " ++
    s!"invalid value for bool: '{f.word}'"

/-- The truth value of a word in any letter case of ASCII. -/
def truth? (word : List Char) : Option Bool :=
  let lower := word.map Char.toLower
  if lower = "1".toList ∨ lower = "true".toList ∨ lower = "yes".toList then some true
  else if lower = "0".toList ∨ lower = "false".toList ∨ lower = "no".toList then some false
  else none

/-- The truth value of a variable. An empty variable gives none, and blanks around the word do
not count. -/
def release? (value : Option String) : Except Fault (Option Bool) :=
  match value with
  | none => .ok none
  | some value =>
    if value = "" then .ok none
    else
      let word := Text.trim value.toList
      match truth? word with
      | some b => .ok (some b)
      | none => .error ⟨String.ofList word⟩

def layer (e : Environment) : Except Fault Settings.Layer := do
  let release ← release? e.release
  return {
    inputRoot := e.inputRoot
    outputPath := e.outputPath
    templateRoot := e.templateRoot
    release }

end Environment

end SectionCompiler
