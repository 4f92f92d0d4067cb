import SectionCompiler.Disk
import SectionCompiler.Format
import SectionCompiler.Ini.Reader
import SectionCompiler.Toml.Document
import SectionCompiler.Yaml.Document
/-! Documents in files. The extension of a file tells its format. -/

namespace SectionCompiler

def Format.parse (f : Format) (text : String) : Except Unreadable Document :=
  match f with
  | .ini => .ok (Ini.parse text)
  | .yaml => Yaml.document text
  | .toml => Toml.document text

namespace DocumentFile

inductive Fault where
  | unsupported (path : String)
  | disk (path : String) (cause : Disk.Fault)
  | unreadable (path : String) (reason : Unreadable)
  deriving DecidableEq, Repr

def diskMessage (path : String) (cause : Disk.Fault) : String :=
  s!"Failed to read {path}: {cause.message}"

def parseMessage (path reason : String) : String := s!"Failed to parse {path}: {reason}"

def Fault.message : Fault → String
  | unsupported path => s!"Unsupported document format: {path}"
  | disk path cause => diskMessage path cause
  | unreadable path reason => parseMessage path reason.message

def parse (f : Format) (path text : String) : Except Fault Document :=
  (f.parse text).mapError (Fault.unreadable path)

/-- Reads the document in a file. The format is looked at before the file. -/
def read (d : Disk) (path : String) : Except Fault Document :=
  match Format.ofPath? path with
  | none => .error (.unsupported path)
  | some f =>
    match d.read path with
    | .error cause => .error (.disk path cause)
    | .ok text => parse f path text

end DocumentFile

end SectionCompiler
