import SectionCompiler.Section
import SectionCompiler.Text.Blank
import SectionCompiler.Text.Quoted
/-! Writing documents as one INI text. A text that the reader would take for something else is
written in quotes. -/

namespace SectionCompiler.Ini

open Text

/-- Whether the reader would take a plain text for something else. -/
def needsQuotes (cs : List Char) : Bool :=
  cs.any (fun c => c = '=' || c = ';' || c = '\r' || c = '\n') ||
    cs.head?.any (fun c => c = '[' || c = '"' || c = '\'' || c = '#') ||
    trim cs != cs

def written (cs : List Char) : List Char := if needsQuotes cs then Quoted.encode cs else cs

def writtenText (text : String) : List Char := written text.toList

def headerLine (heading : String) : List Char := '[' :: (writtenText heading ++ [']', '\n'])

def scalarLine (key text : String) : List Char :=
  writtenText key ++ '=' :: (writtenText text ++ ['\n'])

def itemLine (key item : String) : List Char :=
  writtenText key ++ '[' :: ']' :: '=' :: (writtenText item ++ ['\n'])

def entryLines : Entry → List Char
  | (key, .scalar text) => scalarLine key text
  | (key, .list items) => items.flatMap (itemLine key)

def sectionLines (heading : String) (content : Section) : List Char :=
  headerLine heading ++ content.entries.flatMap entryLines

/-- The sections of a document, with an empty line between two of them. -/
def documentLines (document : Document) : List Char :=
  ['\n'].intercalate (document.entries.map fun (heading, content) => sectionLines heading content)

def bannerLine (name : String) : List Char := "; File: ".toList ++ name.toList ++ ['\n']

/-- Documents in the given order, each with an empty line after it and, unless it is for release,
a comment with its name before it. -/
def renderChars (documents : List (String × Document)) (release : Bool) : List Char :=
  documents.flatMap fun (name, document) =>
    (if release then [] else bannerLine name) ++ documentLines document ++ ['\n']

def render (documents : List (String × Document)) (release : Bool) : String :=
  String.ofList (renderChars documents release)

end SectionCompiler.Ini
