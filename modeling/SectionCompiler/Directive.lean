/-! Directives. A key that begins with an at sign tells the compiler to put other entries in the
place of its own. -/

namespace SectionCompiler

inductive Directive where
  /-- The entries of other sections. -/
  | inherit
  /-- The entries of a template, by the template's name. -/
  | template (name : String)
  deriving DecidableEq, Repr

namespace Directive

def inheritKey : String := "@Inherits"

def ofKey? (key : String) : Option Directive :=
  if key = inheritKey then some .inherit
  else match key.toList with
    | '@' :: name => some (.template (String.ofList name))
    | _ => none

end Directive

end SectionCompiler
