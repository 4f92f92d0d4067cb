import SectionCompiler.CommandLine
/-! What the program says about its command line. -/

namespace SectionCompiler.CommandLine

def version : String := "iniweave 0.1.0"

def usage : String := "Usage: iniweave [-v | -q] <COMMAND>

Commands:
  build  [-c <CONFIG>] [-o <OUTPUT>] [--release] [--no-strict] [--dry-run]
  diff   <FROM> <TO> -s <SECTION> [--json]
  init   [-o <OUTPUT>]
  help"

def Refusal.message : Refusal → String
  | help => usage
  | version => CommandLine.version
  | nothingGiven => usage
  | missingCommand => "error: a command is missing"
  | unknownCommand => "error: there is no such command"
  | unknownArgument => "error: an argument is unknown"
  | missingArgument => "error: a required argument is missing"
  | conflict => "error: an argument cannot be used with another one or twice"
  | missingValue => "error: the value of an argument is missing"
  | unwantedValue => "error: an argument does not take a value"

/-- Whether the refusal is what was asked for. -/
def Refusal.isAnswer : Refusal → Bool
  | help => true
  | version => true
  | _ => false

end SectionCompiler.CommandLine
