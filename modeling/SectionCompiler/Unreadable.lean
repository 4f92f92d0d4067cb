/-! Why a text is no document. -/

namespace SectionCompiler

inductive Unreadable where
  /-- The text is not well formed in its format. -/
  | malformed
  | notMapping
  | headingNotScalar
  | keyNotScalar (heading : String)
  | nestedInSection (key heading : String)
  | nestedInTable (key heading : String)
  | sectionNotMapping (heading : String)
  deriving DecidableEq, Repr

def Unreadable.message : Unreadable → String
  | malformed => "not well formed"
  | notMapping => "expected a mapping of sections at the top level"
  | headingNotScalar => "section names must be scalars"
  | keyNotScalar heading => s!"non-scalar key in section '{heading}'"
  | nestedInSection key heading => s!"nested value for '{key}' in section '{heading}'"
  | nestedInTable key heading => s!"nested value for '{key}' in table '{heading}'"
  | sectionNotMapping heading => s!"section '{heading}' must be a mapping"

end SectionCompiler
