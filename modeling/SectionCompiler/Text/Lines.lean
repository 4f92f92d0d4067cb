/-! The lines of a text. A line ends at a line feed, or at a carriage return and a line feed;
the last line may lack its end. -/

namespace SectionCompiler.Text

/-- The lines of a text without their ends. A text that ends with a line end has no empty line
after it, and a carriage return that no line feed follows stays in its line. -/
def lines : List Char → List (List Char)
  | [] => []
  | '\r' :: '\n' :: rest => [] :: lines rest
  | c :: rest =>
    if c = '\n' then [] :: lines rest
    else match lines rest with
      | [] => [[c]]
      | line :: others => (c :: line) :: others

@[simp] theorem lines_nil : lines [] = [] := by simp [lines]

end SectionCompiler.Text
