import SectionCompiler.CommandLine.Grammar
import SectionCompiler.Text.Search
/-! Reading the words of a command line under a grammar, from left to right. A parameter waits for
its value until the next word, and its value counts only when the word after that is read; so of
two faults the one that is noticed first is told. -/

namespace SectionCompiler.CommandLine

open Text (cutAt)

structure Words where
  /-- How often the switch for more messages stands there. -/
  verbosity : Nat := 0
  switches : List Switch := []
  values : List (Parameter × String) := []
  /-- The last parameter, as long as its value does not count yet. -/
  pending : Option (Parameter × Option String) := none
  /-- How many words without a dash there have been. -/
  placed : Nat := 0
  deriving DecidableEq, Repr

namespace Words

def has (w : Words) (s : Switch) : Bool := w.switches.contains s

def value? (w : Words) (p : Parameter) : Option String := w.values.lookup p

def awaits (w : Words) : Bool := w.pending.any fun (_, value) => value.isNone

def give (w : Words) (p : Parameter) (value : Option String) : Except Refusal Words :=
  match value with
  | none => .error .missingValue
  | some value =>
    if (w.value? p).isSome then .error .conflict
    else if value = "" ∧ p.allowsEmpty = false then .error .missingValue
    else .ok { w with values := w.values ++ [(p, value)] }

/-- Makes the pending value count. -/
def settle (w : Words) : Except Refusal Words :=
  match w.pending with
  | none => .ok w
  | some (p, value) => give { w with pending := none } p value

def turnOn (w : Words) (s : Switch) : Except Refusal Words := do
  let w ← w.settle
  match s with
  | .help => throw .help
  | .version => throw .version
  | .verbose => return { w with verbosity := w.verbosity + 1 }
  | s => if w.has s then throw .conflict else return { w with switches := w.switches ++ [s] }

def startParameter (w : Words) (p : Parameter) (value : Option String) : Except Refusal Words := do
  let w ← w.settle
  match value with
  | some _ => w.give p value
  | none => return { w with pending := some (p, none) }

/-- Reads an option by its long name, with the value after its equals sign. -/
def readLong (g : Grammar) (w : Words) (name : String) (value : Option String) :
    Except Refusal Words :=
  match g.long? name with
  | none => .error .unknownArgument
  | some (.parameter p) => w.startParameter p value
  | some (.switch s) => if value.isSome then .error .unwantedValue else w.turnOn s

/-- The value that follows the letter of a parameter in the same word. -/
def attached? : List Char → Option String
  | [] => none
  | '=' :: rest => some (String.ofList rest)
  | cs => some (String.ofList cs)

def readShort (g : Grammar) : Words → List Char → Except Refusal Words
  | w, [] => .ok w
  | w, c :: rest =>
    match g.short? c with
    | none => .error .unknownArgument
    | some (.parameter p) => w.startParameter p (attached? rest)
    | some (.switch s) =>
      match w.turnOn s with
      | .error refusal => .error refusal
      | .ok w => readShort g w rest

def misplaced (g : Grammar) (afterDashes : Bool) (word : String) : Refusal :=
  if g.commands = [] ∨ (afterDashes = true ∧ word ∈ g.commands) then .unknownArgument
  else .unknownCommand

def readPlain (g : Grammar) (w : Words) (afterDashes : Bool) (word : String) :
    Except Refusal Words :=
  match g.places[w.placed]? with
  | none => .error (misplaced g afterDashes word)
  | some p => do
    let w ← w.settle
    return { w with pending := some (p, some word), placed := w.placed + 1 }

def readWord (g : Grammar) (w : Words) (word : String) : Except Refusal Words :=
  match word.toList with
  | '-' :: '-' :: body =>
    match cutAt '=' body with
    | some (name, value) => readLong g w (String.ofList name) (some (String.ofList value))
    | none => readLong g w (String.ofList body) none
  | '-' :: c :: letters => readShort g w (c :: letters)
  | _ =>
    match w.pending with
    | some (p, none) => .ok { w with pending := some (p, some word) }
    | _ => readPlain g w false word

/-- Reads words, all of which stand for themselves. -/
def readRest (g : Grammar) (w : Words) (words : List String) : Except Refusal Words :=
  words.foldlM (fun w word => readPlain g w true word) w

/-- Reads words up to the name of a command, which is given with the words after it. After two
dashes words stand for themselves. -/
def read (g : Grammar) (w : Words) :
    List String → Except Refusal (Words × Option (String × List String))
  | [] => do return (← w.settle, none)
  | word :: rest =>
    if w.awaits = false ∧ word ∈ g.commands then .ok (w, some (word, rest))
    else if word = "--" then do return (← (← readRest g w rest).settle, none)
    else
      match readWord g w word with
      | .error refusal => .error refusal
      | .ok w => read g w rest

/-- Refuses switches that exclude each other. -/
def check (w : Words) : Except Refusal Unit :=
  if w.has .quiet ∧ 0 < w.verbosity then .error .conflict else .ok ()

end Words

end SectionCompiler.CommandLine
