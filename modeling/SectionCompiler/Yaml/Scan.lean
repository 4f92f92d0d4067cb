import SectionCompiler.Yaml.Property
/-! The tokens of a YAML text, left to right. The depth of a block is the column of its first
token. A scalar may turn out to be a key only when its colon comes, so the tokens of a key and of
the block that it opens go in at the place of the scalar. Such a key stands in one line and has no
more than 1024 bytes. -/

namespace SectionCompiler.Yaml

/-- A token that a colon may still make a key, with its place among the tokens. -/
structure KeyPlace where
  /-- Without a colon the text is not well formed. -/
  required : Bool
  index : Nat
  line : Nat
  column : Nat
  offset : Nat
  deriving DecidableEq, Repr

structure Scan where
  tokens : Array Token
  /-- The columns of the open blocks, innermost first. -/
  blocks : List Nat
  /-- The place of a key in each open flow collection, innermost first, and in the blocks. -/
  keys : List (Option KeyPlace)
  keyAllowed : Bool

namespace Scan

def start : Scan := ⟨#[], [], [none], true⟩

def inFlow (s : Scan) : Bool := 1 < s.keys.length

def indent (s : Scan) : Int := (s.blocks.head?.map Int.ofNat).getD (-1)

def emit (s : Scan) (t : Token) : Scan := { s with tokens := s.tokens.push t }

def emitAt (s : Scan) (index : Nat) (t : Token) : Scan :=
  { s with tokens :=
      ((s.tokens.extract 0 index).push t) ++ s.tokens.extract index s.tokens.size }

/-- Opens a block at a column, unless a block of that column is open. -/
def open? (s : Scan) (column index : Nat) (t : Token) : Scan :=
  if s.inFlow || column ≤ s.indent then s
  else { s.emitAt index t with blocks := column :: s.blocks }

def closeBlocks (s : Scan) (column : Int) : Scan :=
  if s.inFlow then s
  else
    let closed := s.blocks.takeWhile fun (b : Nat) => column < b
    { s with
      tokens := s.tokens ++ (closed.map fun _ => Token.blockEnd).toArray
      blocks := s.blocks.drop closed.length }

/-- Gives up the place of the innermost key, unless a key has to stand there. -/
def dropKey (s : Scan) : Option Scan :=
  match s.keys with
  | some k :: rest => if k.required then none else some { s with keys := none :: rest }
  | _ => some s

def noteKey (s : Scan) (g : Glyph) : Option Scan :=
  if s.keyAllowed then do
    let s ← s.dropKey
    let place : KeyPlace :=
      ⟨!s.inFlow && s.indent = g.column, s.tokens.size, g.line, g.column, g.offset⟩
    return { s with keys := some place :: s.keys.tail }
  else some s

/-- The greatest number of bytes from a key to its colon. -/
def maxKey : Nat := 1024

def isStale (k : KeyPlace) (g : Glyph) : Bool := k.line < g.line || k.offset + maxKey < g.offset

/-- Gives up the places of keys from which the text has gone too far. -/
def dropStaleKeys (s : Scan) (g : Glyph) : Option Scan :=
  if s.keys.any fun k => k.any fun k => isStale k g && k.required then none
  else some { s with keys := s.keys.map fun k => k.filter fun k => !isStale k g }

/-- Skips blanks, line breaks and byte order marks that begin a line. In a block, a new line may
begin with a key, and tabs may not stand where a key may. -/
def skipBlanks : Scan → List Glyph → Scan × List Glyph
  | s, [] => (s, [])
  | s, g :: rest =>
    if g.char = ' ' || (g.char = '\t' && (s.inFlow || !s.keyAllowed)) ||
        (g.char = byteOrderMark && g.column = 0) then skipBlanks s rest
    else if isBreak g.char then
      skipBlanks (if s.inFlow then s else { s with keyAllowed := true }) rest
    else (s, g :: rest)

def skipComments : Nat → Scan → List Glyph → Scan × List Glyph
  | 0, s, gs => (s, gs)
  | fuel + 1, s, gs =>
    let (s, rest) := skipBlanks s gs
    if startsWith '#' rest then skipComments fuel s (skipLine rest) else (s, rest)

def allow (s : Scan) (keyAllowed : Bool) : Scan := { s with keyAllowed }

def documentToken (s : Scan) (t : Token) : Option Scan := do
  let s ← (s.closeBlocks (-1)).dropKey
  return (s.allow false).emit t

def openFlow (s : Scan) (g : Glyph) (t : Token) : Option Scan := do
  let s ← s.noteKey g
  return { s with keys := none :: s.keys, keyAllowed := true }.emit t

def closeFlow (s : Scan) (t : Token) : Option Scan := do
  let s ← s.dropKey
  let keys := if s.inFlow then s.keys.tail else s.keys
  return { s with keys, keyAllowed := false }.emit t

/-- Opens the block of an entry, a key or a value that stands for itself, when it is the first of
its block. -/
def openFor (s : Scan) (g : Glyph) (opening : Token) : Option Scan :=
  if s.inFlow then some s
  else if s.keyAllowed then some (s.open? g.column s.tokens.size opening)
  else none

def entryToken (s : Scan) (g : Glyph) : Option Scan := do
  let s ← s.openFor g .blockSequence
  let s ← s.dropKey
  return (s.allow true).emit .blockEntry

def keyToken (s : Scan) (g : Glyph) : Option Scan := do
  let s ← s.openFor g .blockMapping
  let s ← s.dropKey
  return (s.allow (!s.inFlow)).emit .key

def valueToken (s : Scan) (g : Glyph) : Option Scan :=
  match s.keys with
  | some k :: rest =>
    let s := s.emitAt k.index .key
    let s := s.open? k.column k.index .blockMapping
    some ({ s with keys := none :: rest, keyAllowed := false }.emit .value)
  | _ => do
    let s ← s.openFor g .blockMapping
    return (s.allow (!s.inFlow)).emit .value

def keyLike (s : Scan) (g : Glyph) (r : Option (Token × List Glyph)) :
    Option (Scan × List Glyph) := do
  let s ← s.noteKey g
  let (t, rest) ← r
  return ((s.allow false).emit t, rest)

/-- Characters with which no plain scalar begins. -/
def isIndicator (c : Char) : Bool := "-?:,[]\x7b\x7d#&*!|>'\"%@\x60".toList.contains c

def startsPlain (inFlow : Bool) (g : Glyph) (rest : List Glyph) : Bool :=
  !(isIndicator g.char || isSpace g.char) ||
    (g.char = '-' && !rest.head?.any (fun h => isSpace h.char)) ||
    (!inFlow && (g.char = '?' || g.char = ':') && !endsWord rest)

def token (s : Scan) (g : Glyph) (rest : List Glyph) : Option (Scan × List Glyph) :=
  let gs := g :: rest
  if g.column = 0 && g.char = '%' then do
    let s ← (s.closeBlocks (-1)).dropKey
    let (t, rest) ← readDirective rest
    return ((s.allow false).emit t, rest)
  else if isDocumentMark '-' gs then (s.documentToken .documentStart).map (·, gs.drop 3)
  else if isDocumentMark '.' gs then (s.documentToken .documentEnd).map (·, gs.drop 3)
  else if g.char = '[' then (s.openFlow g .flowSequence).map (·, rest)
  else if g.char = '\x7b' then (s.openFlow g .flowMapping).map (·, rest)
  else if g.char = ']' then (s.closeFlow .flowSequenceEnd).map (·, rest)
  else if g.char = '}' then (s.closeFlow .flowMappingEnd).map (·, rest)
  else if g.char = ',' then s.dropKey.map fun s => ((s.allow true).emit .flowEntry, rest)
  else if g.char = '-' && endsWord rest then (s.entryToken g).map (·, rest)
  else if g.char = '?' && (s.inFlow || endsWord rest) then (s.keyToken g).map (·, rest)
  else if g.char = ':' && (s.inFlow || endsWord rest) then (s.valueToken g).map (·, rest)
  else if g.char = '*' then s.keyLike g ((readName rest).map fun (n, r) => (.alias n, r))
  else if g.char = '&' then s.keyLike g ((readName rest).map fun (n, r) => (.anchor n, r))
  else if g.char = '!' then s.keyLike g (readTag s.inFlow gs)
  else if (g.char = '|' || g.char = '>') && !s.inFlow then do
    let folded := g.char = '>'
    let s ← s.dropKey
    let (text, rest) ← readBlock folded s.indent rest
    return ((s.allow true).emit (.scalar (if folded then .folded else .literal) text), rest)
  else if g.char = '\'' then
    s.keyLike g ((readQuoted true rest).map fun (t, r) => (.scalar .singleQuoted t, r))
  else if g.char = '"' then
    s.keyLike g ((readQuoted false rest).map fun (t, r) => (.scalar .doubleQuoted t, r))
  else if startsPlain s.inFlow g rest then do
    let s ← s.noteKey g
    let p ← readPlain s.inFlow (s.indent + 1).toNat gs
    return ((s.allow p.broken).emit (.scalar .plain p.text), p.rest)
  else none

def run : Nat → Scan → List Glyph → Option Scan
  | 0, _, _ => none
  | fuel + 1, s, gs =>
    match skipComments (gs.length + 1) s gs with
    | (s, []) => (s.closeBlocks (-1)).dropKey
    | (s, g :: rest) => do
      let s ← s.dropStaleKeys g
      let (s, rest) ← (s.closeBlocks g.column).token g rest
      run fuel s rest

end Scan

/-- The tokens of a text, if it is well formed so far. -/
def tokens? (text : String) : Option (List Token) := do
  let gs ← glyphs? text.toList
  let s ← Scan.start.run (gs.length + 1) gs
  return s.tokens.toList

end SectionCompiler.Yaml
