import SectionCompiler.Ini.Line
import SectionCompiler.Section
import SectionCompiler.Text.Lines
/-! Reading an INI text. Every text is an INI text: an entry before the first header is passed
over, and a heading that comes again goes on with its section. -/

namespace SectionCompiler.Ini

/-- What has been read so far, with the heading of the last header. -/
structure Reading where
  document : Document
  heading : Option String
  deriving DecidableEq, Repr

namespace Reading

def start : Reading := ⟨∅, none⟩

def alter (r : Reading) (change : Section → Section) : Reading :=
  match r.heading with
  | some heading => { r with document := r.document.alter heading ∅ change }
  | none => r

def step (r : Reading) : Line → Reading
  | .blank => r
  | .header heading => ⟨r.document.alter heading ∅ id, some heading⟩
  | .entry key value => r.alter (·.push key (.scalar value))
  | .item key value => r.alter (·.pushItem key value)

end Reading

def parseLines (ls : List Line) : Document := (ls.foldl Reading.step Reading.start).document

def parse (text : String) : Document := parseLines ((Text.lines text.toList).map Line.ofChars)

end SectionCompiler.Ini
