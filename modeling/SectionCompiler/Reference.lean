import SectionCompiler.Name
import SectionCompiler.Text.Blank
import SectionCompiler.Text.Search
/-! References to sections, written `document:section`. The document `this` is the one in which
the reference stands. -/

namespace SectionCompiler

structure Reference where
  document : String
  heading : String
  deriving DecidableEq, Repr

namespace Reference

inductive Fault where
  | malformed (raw : String)
  /-- The reference is to `this` document, but there is none. -/
  | noContext (raw : String)
  deriving DecidableEq, Repr

def Fault.message : Fault → String
  | malformed raw =>
    s!"Malformed inheritance reference '{raw}', expected \"<document>:<section>\""
  | noContext raw => s!"Reference '{raw}' uses 'this:' but there is no current document"

/-- The two parts of a reference without the blanks around them; neither part may be blank. -/
def parts? (raw : String) : Option (String × String) :=
  match Text.cutAt ':' (Text.trim raw.toList) with
  | some (document, name) =>
    if Text.trim document = [] ∨ Text.trim name = [] then none
    else some (String.ofList (Text.trim document), String.ofList (Text.trim name))
  | none => none

def parse (raw : String) (caller : Option String) : Except Fault Reference :=
  match parts? raw with
  | none => .error (.malformed raw)
  | some (document, name) =>
    if document = "this" then
      match caller with
      | some caller => .ok ⟨caller, name⟩
      | none => .error (.noContext raw)
    else .ok ⟨Name.normalize document, name⟩

/-- The written form `document:section`, under which resolved content is remembered. -/
def key (r : Reference) : String := r.document ++ ":" ++ r.heading

end Reference

end SectionCompiler
