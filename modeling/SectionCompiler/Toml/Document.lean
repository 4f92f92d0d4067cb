import SectionCompiler.Section
import SectionCompiler.Toml.Parse
import SectionCompiler.Unreadable
/-! Documents written in TOML: tables of scalars and lists of scalars. A key outside all tables is
passed over. -/

namespace SectionCompiler.Toml

def scalarText? : Value → Option String
  | .string text => some text
  | .integer n => some (toString n)
  | .float x => some (floatLayout.write x)
  | .boolean true => some "true"
  | .boolean false => some "false"
  | .datetime text => some text
  | .array _ => none
  | .table _ => none

def entryValue? : Value → Option SectionCompiler.Value
  | .array items => (items.mapM scalarText?).map .list
  | v => (scalarText? v).map .scalar

def entryOf (heading : String) (e : String × Value) : Except Unreadable Entry :=
  match entryValue? e.2 with
  | none => .error (.nestedInTable e.1 heading)
  | some value => .ok (e.1, value)

def sectionOf (heading : String) (entries : List (String × Value)) : Except Unreadable Section :=
  (entries.mapM (entryOf heading)).map Section.mk

/-- The section of a top-level key, if its value is a table. -/
def headedSection (e : String × Value) : Except Unreadable (Option (String × Section)) :=
  match e.2 with
  | .table entries => (sectionOf e.1 entries).map fun content => some (e.1, content)
  | _ => .ok none

def documentOf (entries : List (String × Value)) : Except Unreadable Document :=
  (entries.mapM headedSection).map fun sections => Keyed.ofList (sections.filterMap id)

def document (text : String) : Except Unreadable Document :=
  match parse? text with
  | none => .error .malformed
  | some entries => documentOf entries

end SectionCompiler.Toml
