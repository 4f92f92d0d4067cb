/-! The words that a command understands: switches, which stand alone, parameters, which take a
value, and the places of words without a dash. -/

namespace SectionCompiler.CommandLine

inductive Refusal where
  | help
  | version
  /-- There is nothing on the command line. -/
  | nothingGiven
  | missingCommand
  | unknownCommand
  | unknownArgument
  | missingArgument
  /-- Two arguments exclude each other, or one stands twice. -/
  | conflict
  | missingValue
  | unwantedValue
  deriving DecidableEq, Repr

inductive Switch where
  | help
  | version
  /-- May stand more than once. -/
  | verbose
  | quiet
  | release
  | lenient
  | dryRun
  | json
  deriving DecidableEq, Repr

inductive Parameter where
  | settings
  | output
  | heading
  | first
  | second
  deriving DecidableEq, Repr

/-- Whether an empty text is a value of the parameter. A path may not be empty. -/
def Parameter.allowsEmpty : Parameter → Bool
  | heading => true
  | _ => false

inductive Meaning where
  | switch (s : Switch)
  | parameter (p : Parameter)
  deriving DecidableEq, Repr

structure OptionName where
  long : String
  short : Option Char
  meaning : Meaning
  deriving DecidableEq, Repr

structure Grammar where
  options : List OptionName
  /-- What the words without a dash are, in order. -/
  places : List Parameter
  /-- The names of further commands. -/
  commands : List String
  deriving DecidableEq, Repr

namespace Grammar

def long? (g : Grammar) (name : String) : Option Meaning :=
  (g.options.find? (·.long = name)).map OptionName.meaning

def short? (g : Grammar) (letter : Char) : Option Meaning :=
  (g.options.find? (·.short = some letter)).map OptionName.meaning

def shared : List OptionName := [
  ⟨"help", some 'h', .switch .help⟩,
  ⟨"verbose", some 'v', .switch .verbose⟩,
  ⟨"quiet", some 'q', .switch .quiet⟩]

def outputOption : OptionName := ⟨"output", some 'o', .parameter .output⟩

/-- What may stand before a command. -/
def top : Grammar where
  options := shared ++ [⟨"version", some 'V', .switch .version⟩]
  places := []
  commands := ["build", "diff", "init", "help"]

def build : Grammar where
  options := shared ++ [
    ⟨"config", some 'c', .parameter .settings⟩,
    outputOption,
    ⟨"release", none, .switch .release⟩,
    ⟨"no-strict", none, .switch .lenient⟩,
    ⟨"dry-run", none, .switch .dryRun⟩]
  places := []
  commands := []

def diff : Grammar where
  options := shared ++ [
    ⟨"section", some 's', .parameter .heading⟩,
    ⟨"json", none, .switch .json⟩]
  places := [.first, .second]
  commands := []

def init : Grammar where
  options := shared ++ [outputOption]
  places := []
  commands := []

end Grammar

end SectionCompiler.CommandLine
