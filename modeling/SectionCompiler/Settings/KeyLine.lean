import SectionCompiler.Settings.Schema
import SectionCompiler.Text.Blank
import SectionCompiler.Text.Lines
import SectionCompiler.Text.Search
/-! The line of a settings file on which a key stands. The text is searched line by line for the
key, with the table or the mapping around it; numbers of registry tables do not count in that, and
lines count from one. A key that is not found has line zero. -/

namespace SectionCompiler.Settings

/-- A key as it is reported, with dots between its parts. A part that is a question mark is left
out. -/
def dotted (way : KeyPath) : List Char :=
  let parts := (['.'].intercalate (way.map String.toList)).splitOn '.'
  ['.'].intercalate (parts.filter (· ≠ ['?']))

namespace KeyLine

open Text

/-- Whether a part of a key is a number below 2^64. -/
def isIndex (part : List Char) : Bool :=
  let digits := match part with
    | '+' :: rest => rest
    | _ => part
  digits ≠ [] && digits.all Char.isDigit &&
    digits.foldl (fun n c => 10 * n + (c.toNat - '0'.toNat)) 0 < Nat.pow 2 64

/-- What is searched for: the last part of a key, and the parts before it that are no numbers. -/
structure Target where
  key : List Char
  outer : List (List Char)

def Target.of (dotted : List Char) : Target :=
  let parts := dotted.splitOn '.'
  ⟨parts.getLast?.getD [], parts.dropLast.filter fun part => part ≠ ['?'] && !isIndex part⟩

def headerParts (line : List Char) : List (List Char) :=
  let name := ((line.dropWhile (· = '[')).reverse.dropWhile (· = ']')).reverse
  ((trim name).splitOn '.').map trim

def assigns (key line : List Char) : Bool :=
  match key.isPrefixOf? line with
  | some rest => (trimStart rest).head? = some '='
  | none => false

/-- Searches lines from number `n` on, below the header of `table`. -/
def inToml (t : Target) : Nat → List (List Char) → List (List Char) → Nat
  | _, _, [] => 0
  | n, table, line :: rest =>
    let line := trim line
    if line.head? = some '[' then inToml t (n + 1) (headerParts line) rest
    else if table = t.outer ∧ assigns t.key line = true then n
    else inToml t (n + 1) table rest

def width (cs : List Char) : Nat := (String.ofList cs).utf8ByteSize

def isQuote (c : Char) : Bool := c = '"' || c = '\''

def unquoted (key : List Char) : List Char :=
  ((key.dropWhile isQuote).reverse.dropWhile isQuote).reverse

/-- The indentation and the key of a line, when it has a key. The mark of an item counts as
indentation. -/
def keyOf? (line : List Char) : Option (Nat × List Char) :=
  let body := trimStart line
  let indent := width (line.takeWhile isBlank)
  if body.head?.all (· = '#') then none
  else
    let (indent, body) := match body with
      | '-' :: ' ' :: item => (indent + 2, trimStart item)
      | _ => (indent, body)
    (cutAt ':' body).map fun (key, _) => (indent, unquoted (trim key))

/-- Searches lines from number `n` on. The keys around a line are known with their indentation,
the innermost first. -/
def inYaml (t : Target) : Nat → List (Nat × List Char) → List (List Char) → Nat
  | _, _, [] => 0
  | n, around, line :: rest =>
    match keyOf? line with
    | none => inYaml t (n + 1) around rest
    | some (indent, key) =>
      let around := around.dropWhile fun (depth, _) => indent ≤ depth
      if key = t.key ∧ (around.map Prod.snd).reverse = t.outer then n
      else inYaml t (n + 1) ((indent, key) :: around) rest

end KeyLine

def tomlLine (content dotted : List Char) : Nat :=
  KeyLine.inToml (.of dotted) 1 [] (Text.lines content)

def yamlLine (content dotted : List Char) : Nat :=
  KeyLine.inYaml (.of dotted) 1 [] (Text.lines content)

end SectionCompiler.Settings
