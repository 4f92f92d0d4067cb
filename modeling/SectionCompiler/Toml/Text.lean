import SectionCompiler.Text.Quoted
/-! Blanks, comments, keys and strings of TOML. Each reader takes what it reads off the front of a
text and returns it with the rest, or nothing when the text does not begin so. -/

namespace SectionCompiler.Toml

def isBlank (c : Char) : Bool := c = ' ' || c = '\t'

def skipBlanks (cs : List Char) : List Char := cs.dropWhile isBlank

def newline? : List Char → Option (List Char)
  | '\n' :: rest => some rest
  | '\r' :: '\n' :: rest => some rest
  | _ => none

/-- Characters that may stand as themselves in a comment or a string. -/
def isPrintable (c : Char) : Bool := c = '\t' || (0x20 ≤ c.toNat && c.toNat ≠ 0x7F)

def skipComment (cs : List Char) : List Char :=
  match cs with
  | '#' :: rest => rest.dropWhile isPrintable
  | _ => cs

def lineEnd? (cs : List Char) : Option (List Char) :=
  match skipComment (skipBlanks cs) with
  | [] => some []
  | rest => newline? rest

/-- Skips blanks, comments and line ends; `fuel` bounds the number of lines. -/
def skipLines : Nat → List Char → List Char
  | 0, cs => cs
  | fuel + 1, cs =>
    let rest := skipBlanks cs
    match newline? (skipComment rest) with
    | some rest => skipLines fuel rest
    | none => rest

def hex? : Nat → Nat → List Char → Option (Nat × List Char)
  | 0, n, cs => some (n, cs)
  | _ + 1, _, [] => none
  | k + 1, n, c :: rest => do hex? k (n * 16 + (← Text.Quoted.hexValue? c)) rest

def escape? : List Char → Option (Char × List Char)
  | 'b' :: rest => some ('\x08', rest)
  | 'f' :: rest => some ('\x0c', rest)
  | 'n' :: rest => some ('\n', rest)
  | 'r' :: rest => some ('\r', rest)
  | 't' :: rest => some ('\t', rest)
  | '"' :: rest => some ('"', rest)
  | '\\' :: rest => some ('\\', rest)
  | 'u' :: rest => do
    let (n, rest) ← hex? 4 0 rest
    return (← Text.Quoted.charOfCode? n, rest)
  | 'U' :: rest => do
    let (n, rest) ← hex? 8 0 rest
    return (← Text.Quoted.charOfCode? n, rest)
  | _ => none

def basic? : Nat → List Char → List Char → Option (List Char × List Char)
  | 0, _, _ => none
  | _ + 1, _, [] => none
  | fuel + 1, text, c :: rest =>
    if c = '"' then some (text, rest)
    else if c = '\\' then do
      let (e, rest) ← escape? rest
      basic? fuel (text ++ [e]) rest
    else if isPrintable c then basic? fuel (text ++ [c]) rest
    else none

def literal? : List Char → Option (List Char × List Char)
  | [] => none
  | c :: rest =>
    if c = '\'' then some ([], rest)
    else if isPrintable c then (literal? rest).map fun (text, rest) => (c :: text, rest)
    else none

/-- Reads a backslash at the end of a line with the blanks and line ends after it. -/
def joinLines? (cs : List Char) : Option (List Char) :=
  (newline? (skipBlanks cs)).map fun rest =>
    skipLinesOnly rest.length rest
where
  /-- Skips blanks and line ends. -/
  skipLinesOnly : Nat → List Char → List Char
    | 0, cs => cs
    | fuel + 1, cs =>
      match newline? (skipBlanks cs) with
      | some rest => skipLinesOnly fuel rest
      | none => skipBlanks cs

def closing? (quote : Char) (text cs : List Char) : Option (List Char × List Char) :=
  let run := (cs.takeWhile (· = quote)).length
  let inside := min (run - 3) 2
  some (text ++ List.replicate inside quote, cs.drop (inside + 3))

def multiline? (quote : Char) (escapes : Bool) :
    Nat → List Char → List Char → Option (List Char × List Char)
  | 0, _, _ => none
  | _ + 1, _, [] => none
  | fuel + 1, text, c :: rest =>
    if c = quote then
      let run := ((c :: rest).takeWhile (· = quote)).length
      if 3 ≤ run then closing? quote text (c :: rest)
      else multiline? quote escapes fuel (text ++ [c]) rest
    else if escapes && c = '\\' then
      match joinLines? rest with
      | some rest => multiline? quote escapes fuel text rest
      | none => do
        let (e, rest) ← escape? rest
        multiline? quote escapes fuel (text ++ [e]) rest
    else match newline? (c :: rest) with
      | some rest => multiline? quote escapes fuel (text ++ ['\n']) rest
      | none =>
        if isPrintable c then multiline? quote escapes fuel (text ++ [c]) rest else none

/-- Reads a string of any kind. A line end right after three opening quotes does not count. -/
def string? (cs : List Char) : Option (List Char × List Char) :=
  match cs with
  | '"' :: '"' :: '"' :: rest =>
    let rest := (newline? rest).getD rest
    multiline? '"' true (rest.length + 1) [] rest
  | '\'' :: '\'' :: '\'' :: rest =>
    let rest := (newline? rest).getD rest
    multiline? '\'' false (rest.length + 1) [] rest
  | '"' :: rest => basic? (rest.length + 1) [] rest
  | '\'' :: rest => literal? rest
  | _ => none

def isBare (c : Char) : Bool := c.isAlphanum || c = '_' || c = '-'

def simpleKey? (cs : List Char) : Option (String × List Char) :=
  match cs with
  | '"' :: rest => (basic? (rest.length + 1) [] rest).map fun (t, r) => (String.ofList t, r)
  | '\'' :: rest => (literal? rest).map fun (t, r) => (String.ofList t, r)
  | _ =>
    let bare := cs.takeWhile isBare
    if bare = [] then none else some (String.ofList bare, cs.dropWhile isBare)

/-- A key has fewer parts than this, and values are nested less deep. -/
def depthLimit : Nat := 80

/-- Reads the parts of a key, with blanks around each; `fuel` bounds their number. -/
def keyParts? : Nat → List Char → Option (List String × List Char)
  | 0, _ => none
  | fuel + 1, cs => do
    let (part, rest) ← simpleKey? (skipBlanks cs)
    match skipBlanks rest with
    | '.' :: rest => do
      let (parts, rest) ← keyParts? fuel rest
      return (part :: parts, rest)
    | rest => return ([part], rest)

def key? (cs : List Char) : Option (List String × List Char) := do
  let (parts, rest) ← keyParts? (cs.length + 1) cs
  if parts.length < depthLimit then some (parts, rest) else none

end SectionCompiler.Toml
