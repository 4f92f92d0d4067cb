/-! Document names. A name is a path of segments; its normal form has forward slashes only, no
empty and no `.` segment, and `..` only at the front of a name without a root. -/

namespace SectionCompiler.Name

def slashed (c : Char) : Char := if c = '\\' then '/' else c

/-- Follows one segment. The way so far is kept last segment first; from a root there is no
way up. -/
def follow (rooted : Bool) (way : List (List Char)) (segment : List Char) : List (List Char) :=
  if segment = [] ∨ segment = ['.'] then way
  else if segment = ['.', '.'] then
    match way with
    | [] => if rooted then [] else [segment]
    | last :: rest => if last = ['.', '.'] then segment :: way else rest
  else segment :: way

def isRooted (cs : List Char) : Bool := cs.head? = some '/'

def segments (cs : List Char) : List (List Char) :=
  ((cs.splitOn '/').foldl (follow (isRooted cs)) []).reverse

def normalizeChars (cs : List Char) : List Char :=
  let unified := cs.map slashed
  let joined := ['/'].intercalate (segments unified)
  if isRooted unified then '/' :: joined
  else if joined = [] then ['.']
  else joined

/-- The normal form of a name. The name that leads nowhere is `.`. -/
def normalize (name : String) : String := String.ofList (normalizeChars name.toList)

/-- The name without the extension of its last segment. A segment that begins with its only dot
has no extension. -/
def stemChars (cs : List Char) : List Char :=
  let file := (cs.reverse.takeWhile (· ≠ '/')).reverse
  let before := cs.take (cs.length - file.length)
  match file.reverse.dropWhile (· ≠ '.') with
  | _ :: stem => if stem = [] then cs else before ++ stem.reverse
  | [] => cs

def stem (name : String) : String := String.ofList (stemChars name.toList)

end SectionCompiler.Name
