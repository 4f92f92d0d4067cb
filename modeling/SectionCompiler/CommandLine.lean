import SectionCompiler.Action
import SectionCompiler.CommandLine.Words
/-! The command line of the program: switches, a command, and the words of the command. -/

namespace SectionCompiler

inductive Verbosity where
  | warnings
  | normal
  | details
  | everything
  deriving DecidableEq, Repr

structure Invocation where
  action : Action
  verbosity : Verbosity
  deriving DecidableEq, Repr

namespace CommandLine

def buildAction (w : Words) : Except Refusal Action := do
  w.check
  return .build (w.value? .settings) (w.value? .output) (w.has .release) (!w.has .lenient)
    (w.has .dryRun)

def diffAction (w : Words) : Except Refusal Action := do
  w.check
  match w.value? .first, w.value? .second, w.value? .heading with
  | some first, some second, some heading => return .compare first second heading (w.has .json)
  | _, _, _ => throw .missingArgument

def initAction (w : Words) : Except Refusal Action := do
  w.check
  return .explain (w.value? .output)

def readCommand (g : Grammar) (action : Words → Except Refusal Action) (words : List String) :
    Except Refusal (Words × Action) := do
  let (w, _) ← Words.read g {} words
  return (w, ← action w)

def helpFor : List String → Refusal
  | [] => .help
  | [command] => if command ∈ Grammar.top.commands then .help else .unknownCommand
  | _ => .unknownCommand

def command (name : String) (words : List String) : Except Refusal (Words × Action) :=
  match name with
  | "build" => readCommand .build buildAction words
  | "diff" => readCommand .diff diffAction words
  | "init" => readCommand .init initAction words
  | _ => .error (helpFor words)

/-- How much to tell. What stands after the command counts before what stands in front of it. -/
def verbosityOf (front words : Words) : Verbosity :=
  if front.has .quiet || words.has .quiet then .warnings
  else match if 0 < words.verbosity then words.verbosity else front.verbosity with
    | 0 => .normal
    | 1 => .details
    | _ => .everything

def withoutCommand (front : Words) : Refusal :=
  if front.verbosity = 0 ∧ front.switches = [] then .nothingGiven else .missingCommand

/-- Reads a command line. The command is checked before what stands in front of it. -/
def parse (words : List String) : Except Refusal Invocation := do
  let (front, found) ← Words.read .top {} words
  match found with
  | none => throw (withoutCommand front)
  | some (name, rest) =>
    let (w, action) ← command name rest
    front.check
    return ⟨action, verbosityOf front w⟩

end CommandLine

end SectionCompiler
