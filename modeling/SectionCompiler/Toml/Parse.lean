import SectionCompiler.Toml.Scalar
import SectionCompiler.Toml.Table
import SectionCompiler.Toml.Text
/-! Reading a TOML text: lines of keys and values, under the headers of tables. -/

namespace SectionCompiler.Toml

def keyAndSign? (cs : List Char) : Option (List String × List Char) := do
  let (parts, rest) ← key? cs
  match rest with
  | '=' :: rest => some (parts, skipBlanks rest)
  | _ => none

mutual

/-- Reads a value in which collections are nested less than `room` deep; `fuel` bounds the number
of steps. -/
def value? : Nat → Nat → List Char → Option (Value × List Char)
  | 0, _, _ => none
  | fuel + 1, room, cs =>
    match cs with
    | [] => none
    | c :: rest =>
      if c = '"' ∨ c = '\'' then (string? cs).map fun (t, r) => (.string (String.ofList t), r)
      else if c = '[' then
        match room with
        | 0 => none
        | room + 1 => (items? fuel room [] rest).map fun (vs, r) => (.array vs, r)
      else if c = '\x7b' then
        match room with
        | 0 => none
        | room + 1 =>
          match skipBlanks rest with
          | '}' :: rest => some (.table [], rest)
          | rest => (pairs? fuel room [] rest).map fun (es, r) => (.table (valuesOf es), r)
      else if c = '+' ∨ c = '-' ∨ c.isDigit then numeric? cs
      else match cs with
        | 't' :: 'r' :: 'u' :: 'e' :: rest => some (.boolean true, rest)
        | 'f' :: 'a' :: 'l' :: 's' :: 'e' :: rest => some (.boolean false, rest)
        | _ => special? cs

def items? : Nat → Nat → List Value → List Char → Option (List Value × List Char)
  | 0, _, _, _ => none
  | fuel + 1, room, done, cs =>
    match skipLines (cs.length + 1) cs with
    | ']' :: rest => some (done, rest)
    | cs => do
      let (v, rest) ← value? fuel room cs
      match skipLines (rest.length + 1) rest with
      | ',' :: rest => items? fuel room (done ++ [v]) rest
      | ']' :: rest => some (done ++ [v], rest)
      | _ => none

def pairs? : Nat → Nat → Entries → List Char → Option (Entries × List Char)
  | 0, _, _, _ => none
  | fuel + 1, room, done, cs => do
    let (parts, rest) ← keyAndSign? cs
    let (v, rest) ← value? fuel room rest
    let done ← done.addKey? parts v
    match skipBlanks rest with
    | ',' :: rest => pairs? fuel room done rest
    | '}' :: rest => some (done, rest)
    | _ => none

end

/-- A text that has been read in part: the tables so far, and the header of the last one. -/
structure Reading where
  entries : Entries
  header : List String

def header? (r : Reading) (cs : List Char) : Option (Reading × List Char) := do
  let (double, cs) := match cs with
    | '[' :: rest => (true, rest)
    | _ => (false, cs)
  let (parts, rest) ← key? cs
  let rest ← match double, rest with
    | false, ']' :: rest => some rest
    | true, ']' :: ']' :: rest => some rest
    | _, _ => none
  let rest ← lineEnd? rest
  let key ← parts.getLast?
  let change := if double then Entries.openElement? key else Entries.openTable? key
  let entries ← r.entries.atHeader change parts.dropLast
  return (⟨entries, parts⟩, rest)

def pair? (r : Reading) (cs : List Char) : Option (Reading × List Char) := do
  let (parts, rest) ← keyAndSign? cs
  let (v, rest) ← value? (2 * rest.length + 2) (depthLimit - 1) rest
  let rest ← lineEnd? rest
  let entries ← r.entries.atHeader (fun es => es.addKey? parts v) r.header
  return ({ r with entries }, rest)

def lines? : Nat → Reading → List Char → Option Entries
  | 0, _, _ => none
  | fuel + 1, r, cs =>
    match skipBlanks cs with
    | [] => some r.entries
    | c :: rest =>
      if c = '#' ∨ c = '\n' ∨ c = '\r' then (lineEnd? (c :: rest)).bind (lines? fuel r)
      else do
        let (r, rest) ← if c = '[' then header? r rest else pair? r (c :: rest)
        lines? fuel r rest

/-- Reads a text. A byte order mark in front does not count. -/
def parse? (text : String) : Option (List (String × Value)) :=
  let cs := match text.toList with
    | '\ufeff' :: rest => rest
    | cs => cs
  (lines? (cs.length + 1) ⟨[], []⟩ cs).map valuesOf

end SectionCompiler.Toml
