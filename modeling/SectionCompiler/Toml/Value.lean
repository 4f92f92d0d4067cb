import SectionCompiler.Decimal.Shortest
/-! The values of TOML. A table keeps its keys in order, and a date or time is kept in its written
form. -/

namespace SectionCompiler.Toml

inductive Value where
  | string (text : String)
  | integer (n : Int)
  | float (x : Decimal.Float64)
  | boolean (b : Bool)
  | datetime (text : String)
  | array (items : List Value)
  | table (entries : List (String × Value))
  deriving Repr, Inhabited

/-- Floating point numbers are written without an exponent. -/
def floatLayout : Decimal.Layout := ⟨.greater, none, none, false, "inf", "NaN"⟩

end SectionCompiler.Toml
