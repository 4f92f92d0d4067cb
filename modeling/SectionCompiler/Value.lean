import SectionCompiler.Text.Search
/-! What an entry of a section holds: one text, or a list of texts. -/

namespace SectionCompiler

inductive Value where
  | scalar (text : String)
  | list (items : List String)
  deriving DecidableEq, Repr, Inhabited

def commaParts (text : String) : List String :=
  (text.toList.splitOn ',').map String.ofList

namespace Value

def scalar? : Value → Option String
  | scalar text => some text
  | list _ => none

def strings : Value → List String
  | scalar text => [text]
  | list items => items

/-- Applies `f` to every text and keeps the shape. -/
def map (f : String → String) : Value → Value
  | scalar text => scalar (f text)
  | list items => list (items.map f)

/-- The printed form: a list stands with commas between its items. -/
def render : Value → String
  | scalar text => text
  | list items => String.intercalate "," items

/-- The arguments that a value stands for: a list as it is, a scalar cut at its commas. -/
def arguments : Value → List String
  | scalar text => commaParts text
  | list items => items

@[simp] theorem strings_map (f : String → String) (v : Value) :
    (v.map f).strings = v.strings.map f := by cases v <;> rfl

theorem map_map (f g : String → String) (v : Value) : (v.map f).map g = v.map fun s => g (f s) := by
  cases v with
  | scalar text => rfl
  | list items => exact congrArg list List.map_map

theorem map_congr {f g : String → String} {v : Value} (h : ∀ s ∈ v.strings, f s = g s) :
    v.map f = v.map g := by
  cases v with
  | scalar text => exact congrArg scalar (h text List.mem_cons_self)
  | list items => exact congrArg list (List.map_congr_left h)

end Value

end SectionCompiler
