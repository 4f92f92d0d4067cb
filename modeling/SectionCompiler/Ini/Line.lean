import SectionCompiler.Text.Blank
import SectionCompiler.Text.Quoted
import SectionCompiler.Text.Search
/-! The lines of an INI text. A line is blank or a comment, the header of a section, an entry, or
an item of a list. -/

namespace SectionCompiler.Ini

open Text

inductive Line where
  /-- A blank line or a comment. -/
  | blank
  | header (heading : String)
  | entry (key value : String)
  | item (key value : String)
  deriving DecidableEq, Repr

/-- A text without the quotes around it. Escapes count between double quotes, unless the text
between them is no string of JSON. -/
def unquote (cs : List Char) : List Char :=
  if 2 ≤ cs.length ∧ cs.head? = some '"' ∧ cs.getLast? = some '"' then
    (Quoted.decode cs).getD (cs.tail.dropLast)
  else if 2 ≤ cs.length ∧ cs.head? = some '\'' ∧ cs.getLast? = some '\'' then
    cs.tail.dropLast
  else cs

/-- Cuts a text after the quote that closes it, the opening quote being read already. -/
def cutAfterQuote : List Char → Option (List Char × List Char)
  | '\\' :: c :: rest => (cutAfterQuote rest).map fun (a, b) => ('\\' :: c :: a, b)
  | c :: rest =>
    if c = '"' then some (['"'], rest)
    else (cutAfterQuote rest).map fun (a, b) => (c :: a, b)
  | [] => none

/-- Key and value around the first equals sign that is not in a quoted key. -/
def keyValue? (cs : List Char) : Option (List Char × List Char) :=
  match cs with
  | '"' :: rest => do
    let (quoted, rest) ← cutAfterQuote rest
    let (before, value) ← cutAt '=' rest
    return (trim ('"' :: (quoted ++ before)), trim value)
  | _ => do
    let (key, value) ← cutAt '=' cs
    return (trim key, trim value)

/-- The text before the first semicolon that follows a blank, the blank included. -/
def beforeComment? : List Char → Option (List Char)
  | a :: b :: rest =>
    if isAsciiBlank a ∧ b = ';' then some [a] else (beforeComment? (b :: rest)).map (a :: ·)
  | _ => none

/-- A value without the comment at its end. In a value that begins with a double quote nothing is
a comment. -/
def dropComment (value : List Char) : List Char :=
  if value.head? = some '"' then value
  else match beforeComment? value with
    | some before => trimEnd before
    | none => value

namespace Line

/-- The line of an entry: a key that ends in brackets adds an item to a list. -/
def ofKeyValue (key value : List Char) : Line :=
  match dropSuffix? ['[', ']'] key with
  | some list => item (String.ofList (unquote (trim list))) (String.ofList value)
  | none => entry (String.ofList (unquote key)) (String.ofList value)

def heading? (cs : List Char) : Option (List Char) :=
  match cs with
  | '[' :: rest => (dropSuffix? [']'] rest).map fun inner => unquote (trim inner)
  | _ => none

/-- What a line with no blanks around it says. A line without an equals sign sets its key to
`true`. -/
def ofTrimmed (cs : List Char) : Line :=
  if cs = [] ∨ cs.head? = some ';' ∨ cs.head? = some '#' then blank
  else match heading? cs with
    | some heading => header (String.ofList heading)
    | none =>
      match keyValue? cs with
      | some (key, value) => ofKeyValue key (unquote (dropComment value))
      | none => ofKeyValue cs "true".toList

def ofChars (cs : List Char) : Line := ofTrimmed (trim cs)

end Line

end SectionCompiler.Ini
