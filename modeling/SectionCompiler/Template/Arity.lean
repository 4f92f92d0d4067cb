import SectionCompiler.Placeholder
import SectionCompiler.Section
/-! The arity of a template body: how many arguments its placeholders speak of. The indices that
singles and closed ranges cover have to begin at zero and leave no gap. -/

namespace SectionCompiler

inductive Arity where
  /-- The arguments below this number are spoken of. -/
  | finite (count : Nat)
  /-- An open range takes every argument that is left. -/
  | unbounded
  deriving DecidableEq, Repr, Inhabited

namespace Arity

def effective (a : Arity) (given : Nat) : Nat :=
  match a with
  | finite count => count
  | unbounded => given

inductive Defect where
  /-- The indices skip this one. -/
  | missing (index : Nat)
  /-- A closed range ends before it begins. -/
  | inverted (range : String)
  deriving DecidableEq, Repr

def Defect.message : Defect → String
  | missing index => s!"placeholder index {index} is missing"
  | inverted range => s!"range placeholder '{range}' is inverted"

/-- A run of covered indices, ends included. -/
structure Span where
  first : Nat
  last : Nat
  deriving DecidableEq, Repr

def Span.le (s t : Span) : Bool :=
  s.first < t.first || s.first == t.first && s.last ≤ t.last

/-- The index after another one. The greatest index is its own successor. -/
def next (n : Nat) : Nat := min (n + 1) (Placeholder.indexBound - 1)

/-- What has been gathered from the texts of a body. -/
structure Scan where
  /-- The covered spans, in reading order. -/
  covered : List Span
  greatest? : Option Nat
  isOpen : Bool
  deriving DecidableEq, Repr

namespace Scan

def empty : Scan := ⟨[], none, false⟩

def cover (scan : Scan) (s : Span) : Scan :=
  { scan with
    covered := scan.covered ++ [s]
    greatest? := some (scan.greatest?.elim s.last (max · s.last)) }

def takeRange (scan : Scan) (r : Placeholder.Range) : Except Defect Scan :=
  match r.last with
  | none => .ok { scan with isOpen := true }
  | some last =>
    if last < r.first then .error (.inverted (String.ofList r.text))
    else .ok (scan.cover ⟨r.first, last⟩)

/-- Takes in a text: all its singles, and then its ranges up to one that is inverted. -/
def visit (scan : Scan) (text : String) : Except Defect Scan :=
  let scan := (Placeholder.singles text).foldl (fun scan i => scan.cover ⟨i, i⟩) scan
  (Placeholder.ranges text).foldlM takeRange scan

end Scan

/-- One step of a sweep over sorted spans, which has come as far as the index `reached`. -/
def sweep (reached : Nat) (s : Span) : Except Defect Nat :=
  if reached < s.first then .error (.missing reached) else .ok (max reached (next s.last))

def Scan.finish (scan : Scan) : Except Defect Arity := do
  let _ ← (scan.covered.mergeSort Span.le).foldlM sweep 0
  if scan.isOpen then return .unbounded
  else return .finite (scan.greatest?.elim 0 next)

/-- The texts of a body in reading order: of each entry the key, then the value. -/
def texts (body : Section) : List String :=
  body.entries.flatMap fun (key, value) => key :: value.strings

/-- The arity of a body. An inverted range is reported before a gap. -/
def ofBody (body : Section) : Except Defect Arity := do
  let scan ← (texts body).foldlM Scan.visit .empty
  scan.finish

end Arity

end SectionCompiler
