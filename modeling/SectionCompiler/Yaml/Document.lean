import SectionCompiler.Section
import SectionCompiler.Unreadable
import SectionCompiler.Yaml.Value
/-! Documents written in YAML: a mapping of headings to mappings of keys to scalars or lists of
scalars. Scalars of all types become texts, so two headings may become one; the later section
then takes the place of the earlier. -/

namespace SectionCompiler.Yaml

def scalarText? : Value → Option String
  | .null => some ""
  | .bool true => some "true"
  | .bool false => some "false"
  | .number n => some n.write
  | .string text => some text
  | _ => none

def entryValue? : Value → Option SectionCompiler.Value
  | .sequence items => (items.mapM scalarText?).map .list
  | v => (scalarText? v).map .scalar

def entryOf (heading : String) (e : Value × Value) : Except Unreadable Entry :=
  match scalarText? e.1 with
  | none => .error (.keyNotScalar heading)
  | some key =>
    match entryValue? e.2 with
    | none => .error (.nestedInSection key heading)
    | some value => .ok (key, value)

/-- The section under a heading. Null is an empty section. -/
def sectionOf (heading : String) : Value → Except Unreadable Section
  | .null => .ok ∅
  | .mapping entries => (entries.mapM (entryOf heading)).map Section.mk
  | _ => .error (.sectionNotMapping heading)

def headedSection (e : Value × Value) : Except Unreadable (String × Section) :=
  match scalarText? e.1 with
  | none => .error .headingNotScalar
  | some heading => (sectionOf heading e.2).map fun content => (heading, content)

/-- The document of a value. Null is an empty document. -/
def documentOf : Value → Except Unreadable Document
  | .null => .ok ∅
  | .mapping entries => (entries.mapM headedSection).map Keyed.ofList
  | _ => .error .notMapping

def document (text : String) : Except Unreadable Document :=
  match value? text with
  | none => .error .malformed
  | some v => documentOf v

end SectionCompiler.Yaml
