import SectionCompiler.DocumentFile
import SectionCompiler.Resolution
/-! Comparing the values of a section in two documents. Keys do not count. -/

namespace SectionCompiler

structure Comparison where
  heading : String
  /-- The values that only the first section holds. -/
  more : List Value
  /-- The values that only the second section holds. -/
  less : List Value
  deriving DecidableEq, Repr

namespace Comparison

/-- The values of a list that another list does not hold, with order and repetitions kept. -/
def without (values others : List Value) : List Value := values.filter fun v => v ∉ others

def ofSections (heading : String) (a b : Section) : Comparison :=
  ⟨heading, without a.values b.values, without b.values a.values⟩

def isEmpty (c : Comparison) : Bool := c.more.isEmpty && c.less.isEmpty

structure Missing where
  document : String
  heading : String
  deriving DecidableEq, Repr

def Missing.message (m : Missing) : String :=
  (Resolution.Fault.unknownSection m.document m.heading).message

def sectionOf (document : Document) (name heading : String) : Except Missing Section :=
  match document.get? heading with
  | some content => .ok content
  | none => .error ⟨name, heading⟩

def compare (a : Document) (aName : String) (b : Document) (bName heading : String) :
    Except Missing Comparison := do
  let first ← sectionOf a aName heading
  let second ← sectionOf b bName heading
  return ofSections heading first second

def lineOf (mark : String) (v : Value) : String := "\n" ++ mark ++ " " ++ v.render

def render (c : Comparison) : String :=
  if c.isEmpty then s!"[{c.heading}] values are identical"
  else
    s!"[{c.heading}] {c.more.length} more, {c.less.length} less" ++
      String.join (c.more.map (lineOf "+")) ++ String.join (c.less.map (lineOf "-"))

def quoted (text : String) : String := String.ofList (Text.Quoted.encode text.toList)

/-- The items of an array, each on a line of its own that is indented by `depth` steps. -/
def arrayLines (depth : Nat) (items : List String) : String :=
  let indent (n : Nat) : String := String.ofList (List.replicate (2 * n) ' ')
  if items.isEmpty then "[]"
  else
    "[\n" ++ String.intercalate ",\n" (items.map fun item => indent (depth + 1) ++ item) ++
      "\n" ++ indent depth ++ "]"

def valueJson (depth : Nat) : Value → String
  | .scalar text => quoted text
  | .list items => arrayLines depth (items.map quoted)

def json (c : Comparison) : String :=
  let field (name text : String) : String := "  " ++ quoted name ++ ": " ++ text
  let values (vs : List Value) : String := arrayLines 1 (vs.map (valueJson 2))
  "\x7b\n" ++ String.intercalate ",\n" [field "section" (quoted c.heading),
    field "more" (values c.more), field "less" (values c.less)] ++ "\n\x7d"

inductive Fault where
  | file (fault : DocumentFile.Fault)
  | missing (fault : Missing)
  deriving DecidableEq, Repr

def Fault.message : Fault → String
  | file fault => fault.message
  | missing fault => fault.message

def compareFiles (d : Disk) (a b heading : String) : Except Fault Comparison := do
  let first ← (DocumentFile.read d a).mapError Fault.file
  let second ← (DocumentFile.read d b).mapError Fault.file
  (compare first a second b heading).mapError Fault.missing

end Comparison

end SectionCompiler
