import SectionCompiler.Template.Arity
import SectionCompiler.Text.Search
/-! Templates and their expansion. A range in a key repeats its entry, one entry per argument; a
range in a value repeats the comma part that holds it; single placeholders are filled in after
that, and the result is folded. -/

namespace SectionCompiler

structure Template where
  name : String
  body : Section
  arity : Arity
  deriving DecidableEq, Repr

structure Template.Malformed where
  name : String
  defect : Arity.Defect
  deriving DecidableEq, Repr

namespace Template

def Malformed.message (m : Malformed) : String :=
  s!"Macro '{m.name}' is malformed: {m.defect.message}"

def ofBody (name : String) (body : Section) : Except Malformed Template :=
  match Arity.ofBody body with
  | .ok arity => .ok ⟨name, body, arity⟩
  | .error defect => .error ⟨name, defect⟩

def splice (text : String) (range : Placeholder.Range) (arg : String) : String :=
  String.ofList (Text.replaceFirst range.text arg.toList text.toList)

/-- The first range of a text with the arguments that it stands for, if it has any. -/
def spread? (text : String) (args : List String) : Option (Placeholder.Range × List String) := do
  let range ← Placeholder.firstRange? text
  let slice ← range.slice? args
  return (range, slice)

/-- One key for each argument that the first range of a key stands for. -/
def spreadKey (key : String) (args : List String) : List String :=
  match spread? key args with
  | some (range, slice) => slice.map (splice key range)
  | none => [key]

/-- Repeats the comma parts of a value that hold its first range, once for each argument that
the range stands for. -/
def spreadValue (value : String) (args : List String) : String :=
  match spread? value args with
  | some (range, slice) =>
    String.intercalate "," <| (commaParts value).flatMap fun part =>
      if Text.occursIn range.text part.toList then slice.map (splice part range) else [part]
  | none => value

def expandEntry (count : Nat) (args : List String) (e : Entry) : List Entry :=
  (spreadKey e.1 args).map fun key =>
    (Placeholder.fill count args key,
      e.2.map fun text => Placeholder.fill count args (spreadValue text args))

/-- The entries that a template gives for some arguments, before they are folded. -/
def entriesFor (t : Template) (args : List String) : List Entry :=
  t.body.entries.flatMap (expandEntry (t.arity.effective args.length) args)

def expand (t : Template) (args : List String) : Section := Section.fold ⟨t.entriesFor args⟩

end Template

end SectionCompiler
