/-! The characters of a YAML text, each with its place. A line break of any kind is one character,
and all kinds but the line and the paragraph separator are the same. -/

namespace SectionCompiler.Yaml

/-- A character with its line, its column and the number of bytes before it. -/
structure Glyph where
  char : Char
  line : Nat
  column : Nat
  offset : Nat
  deriving DecidableEq, Repr

def isAllowed (c : Char) : Bool :=
  let n := c.toNat
  n = 0x9 || n = 0xA || n = 0xD || (0x20 ≤ n && n ≤ 0x7E) || n = 0x85 ||
    (0xA0 ≤ n && n ≤ 0xD7FF) || (0xE000 ≤ n && n ≤ 0xFFFD) || 0x10000 ≤ n

def isBreak (c : Char) : Bool :=
  c = '\n' || c = '\r' || c = '\u0085' || c = '\u2028' || c = '\u2029'

def isSpace (c : Char) : Bool := c = ' ' || c = '\t'

def breakOf (c : Char) : Char := if c = '\u2028' ∨ c = '\u2029' then c else '\n'

def glyphsFrom (line column offset : Nat) : List Char → List Glyph
  | [] => []
  | '\r' :: '\n' :: rest =>
    ⟨'\n', line, column, offset⟩ :: glyphsFrom (line + 1) 0 (offset + 2) rest
  | c :: rest =>
    if isBreak c then
      ⟨breakOf c, line, column, offset⟩ :: glyphsFrom (line + 1) 0 (offset + c.utf8Size) rest
    else ⟨c, line, column, offset⟩ :: glyphsFrom line (column + 1) (offset + c.utf8Size) rest

def byteOrderMark : Char := '\ufeff'

def glyphs? (cs : List Char) : Option (List Glyph) :=
  if cs.all isAllowed then some (glyphsFrom 0 0 0 cs) else none

/-- A space, a line break, or the end of the text. -/
def endsWord : List Glyph → Bool
  | [] => true
  | g :: _ => isSpace g.char || isBreak g.char

def endsLine : List Glyph → Bool
  | [] => true
  | g :: _ => isBreak g.char

def startsWith (c : Char) (gs : List Glyph) : Bool := gs.head?.any (·.char = c)

def skipLine (gs : List Glyph) : List Glyph := gs.dropWhile fun g => !isBreak g.char

def skipSpaces (gs : List Glyph) : List Glyph := gs.dropWhile fun g => isSpace g.char

/-- Three dashes or three dots alone at the start of a line. -/
def isDocumentMark (c : Char) : List Glyph → Bool
  | a :: b :: d :: rest =>
    a.column = 0 && a.char = c && b.char = c && d.char = c && endsWord rest
  | _ => false

def atDocumentMark (gs : List Glyph) : Bool := isDocumentMark '-' gs || isDocumentMark '.' gs

end SectionCompiler.Yaml
