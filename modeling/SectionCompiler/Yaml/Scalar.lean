import SectionCompiler.Text.Quoted
import SectionCompiler.Yaml.Glyph
/-! The texts of YAML scalars: plain, quoted and block. Each reader takes the characters from the
start of the scalar and returns its text with the characters after it, or nothing when the scalar
is not well formed. Where lines are folded, one line break reads as a space and of more than one
the first is dropped. -/

namespace SectionCompiler.Yaml

/-- Blanks between two words of a scalar: the spaces of one line, or the breaks between lines. -/
inductive Gap where
  | spaces (text : List Char)
  | breaks (first : List Char) (more : List Char)
  deriving DecidableEq, Repr

namespace Gap

def add (gap : Gap) (c : Char) : Gap :=
  match gap with
  | spaces text => if isBreak c then breaks [c] [] else spaces (text ++ [c])
  | breaks first more => if isBreak c then breaks first (more ++ [c]) else breaks first more

def isBroken : Gap → Bool
  | spaces _ => false
  | breaks _ _ => true

def fold : Gap → List Char
  | spaces text => text
  | breaks ['\n'] [] => [' ']
  | breaks ['\n'] more => more
  | breaks first more => first ++ more

end Gap

def readGap (gap : Gap) : List Glyph → Gap × List Glyph
  | [] => (gap, [])
  | g :: rest =>
    if isSpace g.char || isBreak g.char then readGap (gap.add g.char) rest else (gap, g :: rest)

/-- Whether a tab stands before the column `indent` of a line that the gap takes in. -/
def tabInIndent (indent : Nat) : Bool → List Glyph → Bool
  | _, [] => false
  | broken, g :: rest =>
    if isBreak g.char then tabInIndent indent true rest
    else if isSpace g.char then
      (broken && g.char = '\t' && g.column < indent) || tabInIndent indent broken rest
    else false

def isFlowMark (c : Char) : Bool :=
  c = ',' || c = '[' || c = ']' || c = '\x7b' || c = '}'

/-- Reads the characters of a word of a plain scalar. In a flow collection a colon has to stand
clear of the marks of the collection. -/
def readPlainWord (inFlow : Bool) : List Glyph → Option (List Char × List Glyph)
  | [] => some ([], [])
  | g :: rest =>
    if isSpace g.char || isBreak g.char then some ([], g :: rest)
    else if inFlow && g.char = ':' && rest.head?.any (fun h => isFlowMark h.char || h.char = '?')
    then none
    else if g.char = ':' && endsWord rest then some ([], g :: rest)
    else if inFlow && isFlowMark g.char then some ([], g :: rest)
    else (readPlainWord inFlow rest).map fun (word, rest) => (g.char :: word, rest)

/-- A plain scalar that has been read: its text, whether a line break follows it, and the
characters after it and after the blanks that follow it. -/
structure Plain where
  text : List Char
  broken : Bool
  rest : List Glyph

def readPlainWithin (inFlow : Bool) (indent : Nat) :
    Nat → List Char → Gap → List Glyph → Option Plain
  | 0, _, _, _ => none
  | fuel + 1, text, gap, gs =>
    if atDocumentMark gs || startsWith '#' gs then some ⟨text, gap.isBroken, gs⟩
    else do
      let (word, rest) ← readPlainWord inFlow gs
      let text := if word = [] then text else text ++ gap.fold ++ word
      let gap := if word = [] then gap else .spaces []
      match rest with
      | [] => return ⟨text, gap.isBroken, []⟩
      | g :: _ =>
        if !(isSpace g.char || isBreak g.char) then return ⟨text, gap.isBroken, rest⟩
        else if tabInIndent indent gap.isBroken rest then none
        else
          let (gap, rest) := readGap gap rest
          if !inFlow && rest.head?.all (·.column < indent) then
            return ⟨text, gap.isBroken, rest⟩
          else readPlainWithin inFlow indent fuel text gap rest

/-- Reads a plain scalar. Outside flow collections its lines reach the column `indent`. -/
def readPlain (inFlow : Bool) (indent : Nat) (gs : List Glyph) : Option Plain :=
  readPlainWithin inFlow indent (gs.length + 1) [] (.spaces []) gs

/-- What the character after a backslash stands for, or how many hexadecimal digits follow. -/
def escape? (c : Char) : Option (Char ⊕ Nat) :=
  match c with
  | '0' => some (.inl '\x00')
  | 'a' => some (.inl '\x07')
  | 'b' => some (.inl '\x08')
  | 't' => some (.inl '\t')
  | '\t' => some (.inl '\t')
  | 'n' => some (.inl '\n')
  | 'v' => some (.inl '\x0b')
  | 'f' => some (.inl '\x0c')
  | 'r' => some (.inl '\r')
  | 'e' => some (.inl '\x1b')
  | ' ' => some (.inl ' ')
  | '"' => some (.inl '"')
  | '/' => some (.inl '/')
  | '\\' => some (.inl '\\')
  | 'N' => some (.inl '\u0085')
  | '_' => some (.inl '\u00a0')
  | 'L' => some (.inl '\u2028')
  | 'P' => some (.inl '\u2029')
  | 'x' => some (.inr 2)
  | 'u' => some (.inr 4)
  | 'U' => some (.inr 8)
  | _ => none

def readHex : Nat → Nat → List Glyph → Option (Nat × List Glyph)
  | 0, n, gs => some (n, gs)
  | _ + 1, _, [] => none
  | k + 1, n, g :: rest => do readHex k (n * 16 + (← Text.Quoted.hexValue? g.char)) rest

/-- Reads the characters of a word of a quoted scalar, and tells whether an escaped line break
ends it; `fuel` bounds the number of characters. -/
def readQuotedWord (single : Bool) :
    Nat → List Char → List Glyph → Option ((List Char × Bool) × List Glyph)
  | 0, _, _ => none
  | _ + 1, word, [] => some ((word, false), [])
  | fuel + 1, word, g :: rest =>
    if isSpace g.char || isBreak g.char then some ((word, false), g :: rest)
    else if single then
      if g.char = '\'' then
        if startsWith '\'' rest then readQuotedWord single fuel (word ++ ['\'']) rest.tail
        else some ((word, false), g :: rest)
      else readQuotedWord single fuel (word ++ [g.char]) rest
    else if g.char = '"' then some ((word, false), g :: rest)
    else if g.char = '\\' then
      match rest with
      | [] => none
      | e :: rest =>
        if isBreak e.char then some ((word, true), rest)
        else match escape? e.char with
          | some (.inl c) => readQuotedWord single fuel (word ++ [c]) rest
          | some (.inr digits) => do
            let (n, rest) ← readHex digits 0 rest
            readQuotedWord single fuel (word ++ [← Text.Quoted.charOfCode? n]) rest
          | none => none
    else readQuotedWord single fuel (word ++ [g.char]) rest

def readQuotedWithin (single : Bool) :
    Nat → List Char → List Glyph → Option (List Char × List Glyph)
  | 0, _, _ => none
  | fuel + 1, text, gs =>
    if atDocumentMark gs then none
    else do
      let ((word, escaped), rest) ← readQuotedWord single (gs.length + 1) [] gs
      let text := text ++ word
      if !escaped && startsWith (if single then '\'' else '"') rest then return (text, rest.tail)
      else if rest = [] then none
      else
        let (gap, rest) := readGap (if escaped then .breaks [] [] else .spaces []) rest
        readQuotedWithin single fuel (text ++ gap.fold) rest

def readQuoted (single : Bool) (gs : List Glyph) : Option (List Char × List Glyph) :=
  readQuotedWithin single (gs.length + 1) [] gs

/-- What becomes of the line breaks at the end of a block scalar. -/
inductive Chomping where
  | strip
  | clip
  | keep
  deriving DecidableEq, Repr

def chomping? (gs : List Glyph) : Option Chomping :=
  if startsWith '+' gs then some .keep else if startsWith '-' gs then some .strip else none

def indentMark? (gs : List Glyph) : Option Nat :=
  match gs with
  | g :: _ => if g.char.isDigit then some (g.char.toNat - '0'.toNat) else none
  | [] => none

/-- Reads the marks of a block scalar: how to treat the breaks at its end and how deep it is
indented, in either order, and the rest of their line. -/
def readBlockMarks (gs : List Glyph) : Option ((Chomping × Option Nat) × List Glyph) := do
  let chomp := chomping? gs
  let gs := if chomp.isSome then gs.tail else gs
  let depth := indentMark? gs
  let gs := if depth.isSome then gs.tail else gs
  let late := if chomp.isNone && depth.isSome then chomping? gs else none
  let gs := if late.isSome then gs.tail else gs
  if depth = some 0 then none
  let gs := skipSpaces gs
  let gs := if startsWith '#' gs then skipLine gs else gs
  if !endsLine gs then none
  return (((chomp <|> late).getD .clip, depth), gs.tail)

/-- Reads the empty lines before a line of a block scalar. Without a known indentation, every
space counts to it, and the greatest column is kept. A tab may not stand in the indentation. -/
def readBlockBreaks (indent : Option Nat) :
    List Char → Nat → List Glyph → Option ((List Char × Nat) × List Glyph)
  | breaks, deepest, [] => some ((breaks, deepest), [])
  | breaks, deepest, g :: rest =>
    let inIndent := indent.all (g.column < ·)
    if inIndent && g.char = ' ' then
      readBlockBreaks indent breaks (max deepest (g.column + 1)) rest
    else if inIndent && g.char = '\t' then none
    else if isBreak g.char then
      readBlockBreaks indent (breaks ++ [g.char]) (max deepest g.column) rest
    else some ((breaks, max deepest g.column), g :: rest)

def readLine (gs : List Glyph) : List Char × List Glyph :=
  ((gs.takeWhile fun g => !isBreak g.char).map Glyph.char, skipLine gs)

def takeBreak : List Glyph → List Char × List Glyph
  | g :: rest => if isBreak g.char then ([g.char], rest) else ([], g :: rest)
  | [] => ([], [])

/-- What has been read of a block scalar: its text, the break that ended the last line, the empty
lines after it, and whether that line began with a blank. -/
structure Block where
  text : List Char
  lineBreak : List Char
  breaks : List Char
  blank : Bool

/-- Adds the breaks before a line. A folded scalar joins two lines that begin with no blank. -/
def Block.join (b : Block) (folded blank : Bool) : List Char :=
  if folded && b.lineBreak = ['\n'] && !b.blank && !blank then
    b.text ++ (if b.breaks = [] then [' '] else []) ++ b.breaks
  else b.text ++ b.lineBreak ++ b.breaks

def readBlockLines (folded : Bool) (indent : Nat) :
    Nat → Block → List Glyph → Option (Block × List Glyph)
  | 0, _, _ => none
  | fuel + 1, b, gs =>
    match gs with
    | g :: _ =>
      if g.column = indent then do
        let blank := isSpace g.char
        let (line, rest) := readLine gs
        let (lineBreak, rest) := takeBreak rest
        let ((breaks, _), rest) ← readBlockBreaks (some indent) [] 0 rest
        readBlockLines folded indent fuel
          ⟨b.join folded blank ++ line, lineBreak, breaks, blank⟩ rest
      else some (b, gs)
    | [] => some (b, gs)

/-- Reads a block scalar after its first mark, in a block at the column `outer`, or `-1` outside
all blocks. -/
def readBlock (folded : Bool) (outer : Int) (gs : List Glyph) :
    Option (List Char × List Glyph) := do
  let ((chomp, depth), rest) ← readBlockMarks gs
  let known := depth.map fun d => (max outer 0).toNat + d
  let ((breaks, deepest), rest) ← readBlockBreaks known [] 0 rest
  let indent := known.getD (max (max deepest (outer + 1).toNat) 1)
  let (b, rest) ← readBlockLines folded indent (gs.length + 1) ⟨[], [], breaks, false⟩ rest
  let text := match chomp with
    | .strip => b.text
    | .clip => b.text ++ b.lineBreak
    | .keep => b.text ++ b.lineBreak ++ b.breaks
  return (text, rest)

end SectionCompiler.Yaml
