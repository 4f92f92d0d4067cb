import SectionCompiler.Yaml.Scalar
import SectionCompiler.Yaml.Token
/-! The short tokens of YAML: directives, anchors, aliases and tags. -/

namespace SectionCompiler.Yaml

def isWordChar (c : Char) : Bool := c.isAlphanum || c = '_' || c = '-'

def readWord (gs : List Glyph) : List Char × List Glyph :=
  ((gs.takeWhile fun g => isWordChar g.char).map Glyph.char, gs.dropWhile fun g => isWordChar g.char)

/-- A name must end at a blank or at a mark. -/
def readName (gs : List Glyph) : Option (List Char × List Glyph) :=
  let (name, rest) := readWord gs
  if name = [] then none
  else if endsWord rest ||
      rest.head?.any (fun g => "?:,]\x7d%@\x60".toList.contains g.char) then some (name, rest)
  else none

/-- Reads the handle of a tag: an exclamation mark, and a word that another one ends. -/
def readHandle : List Glyph → Option (List Char × List Glyph)
  | g :: rest =>
    if g.char = '!' then
      let (word, rest) := readWord rest
      if startsWith '!' rest then some ('!' :: (word ++ ['!']), rest.tail)
      else some ('!' :: word, rest)
    else none
  | [] => none

/-- The number of bytes of a character that begins with a given byte. -/
def widthOfByte? (byte : Nat) : Option Nat :=
  if byte < 0x80 then some 1
  else if 0xC0 ≤ byte ∧ byte < 0xE0 then some 2
  else if 0xE0 ≤ byte ∧ byte < 0xF0 then some 3
  else if 0xF0 ≤ byte ∧ byte < 0xF8 then some 4
  else none

/-- Reads one byte that is spelled by a percent sign and two digits. -/
def readEscapedByte (gs : List Glyph) : Option (Nat × List Glyph) :=
  match gs with
  | g :: rest => if g.char = '%' then readHex 2 0 rest else none
  | [] => none

def readTrailingBytes : Nat → List UInt8 → List Glyph → Option (List UInt8 × List Glyph)
  | 0, bytes, gs => some (bytes, gs)
  | k + 1, bytes, gs => do
    let (byte, rest) ← readEscapedByte gs
    if 0x80 ≤ byte ∧ byte < 0xC0 then readTrailingBytes k (bytes ++ [byte.toUInt8]) rest
    else none

def readEscapedChar (gs : List Glyph) : Option (List Char × List Glyph) := do
  let (byte, rest) ← readEscapedByte gs
  let width ← widthOfByte? byte
  let (bytes, rest) ← readTrailingBytes (width - 1) [byte.toUInt8] rest
  let text ← String.fromUTF8? ⟨bytes.toArray⟩
  return (text.toList, rest)

def isTagChar (bracketed : Bool) (c : Char) : Bool :=
  isWordChar c || ";/?:@&=+$.%!~*'()".toList.contains c ||
    (bracketed && (c = ',' || c = '[' || c = ']'))

def readSuffixWithin (bracketed : Bool) :
    Nat → List Char → List Glyph → Option (List Char × List Glyph)
  | 0, _, _ => none
  | _ + 1, text, [] => some (text, [])
  | fuel + 1, text, g :: rest =>
    if !isTagChar bracketed g.char then some (text, g :: rest)
    else if g.char = '%' then do
      let (cs, rest) ← readEscapedChar (g :: rest)
      readSuffixWithin bracketed fuel (text ++ cs) rest
    else readSuffixWithin bracketed fuel (text ++ [g.char]) rest

/-- Reads the suffix of a tag onto the text before it. Both together must not be empty. -/
def readSuffix (bracketed : Bool) (before : List Char) (gs : List Glyph) :
    Option (List Char × List Glyph) := do
  let (text, rest) ← readSuffixWithin bracketed (gs.length + 1) before gs
  return (text, rest)

def readTag (inFlow : Bool) (gs : List Glyph) : Option (Token × List Glyph) := do
  let (token, rest) ←
    if startsWith '<' gs.tail then do
      let (suffix, rest) ← readSuffix true [] gs.tail.tail
      if suffix = [] || !startsWith '>' rest then none
      else some (Token.tag [] suffix, rest.tail)
    else do
      let (handle, rest) ← readHandle gs
      if 2 ≤ handle.length ∧ handle.getLast? = some '!' then
        let (suffix, rest) ← readSuffix false [] rest
        if suffix = [] then none else some (Token.tag handle suffix, rest)
      else
        let (suffix, rest) ← readSuffix false handle.tail rest
        if suffix = [] then some (Token.tag [] ['!'], rest)
        else some (Token.tag ['!'] suffix, rest)
  if endsWord rest || (inFlow && startsWith ',' rest) then some (token, rest) else none

/-- Reads a number of at most nine digits. -/
def readNumber (gs : List Glyph) : Option (Nat × List Glyph) :=
  let digits := (gs.takeWhile fun g => g.char.isDigit).map Glyph.char
  if digits = [] ∨ 9 < digits.length then none
  else some (digits.foldl (fun n d => n * 10 + (d.toNat - '0'.toNat)) 0, gs.drop digits.length)

def readVersion (gs : List Glyph) : Option (Token × List Glyph) := do
  let (major, rest) ← readNumber (skipSpaces gs)
  if !startsWith '.' rest then none
  let (minor, rest) ← readNumber rest.tail
  return (.version major minor, rest)

def readTagDirective (gs : List Glyph) : Option (Token × List Glyph) := do
  let (handle, rest) ← readHandle (skipSpaces gs)
  if handle ≠ ['!'] ∧ ¬ (2 ≤ handle.length ∧ handle.getLast? = some '!') then none
  if !rest.head?.any (fun g => isSpace g.char) then none
  let (replacement, rest) ← readSuffix true [] (skipSpaces rest)
  if replacement = [] || !endsWord rest then none
  return (.tagDirective handle replacement, rest)

def readDirective (gs : List Glyph) : Option (Token × List Glyph) := do
  let (name, rest) := readWord gs
  if !endsWord rest then none
  let (token, rest) ←
    if name = "YAML".toList then readVersion rest
    else if name = "TAG".toList then readTagDirective rest
    else none
  let rest := skipSpaces rest
  let rest := if startsWith '#' rest then skipLine rest else rest
  if !endsLine rest then none
  return (token, rest.tail)

end SectionCompiler.Yaml
