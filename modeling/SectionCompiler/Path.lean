/-! Paths with forward slashes, kept as they are written. Empty segments count for nothing, and
neither does a `.` other than the first. -/

namespace SectionCompiler

inductive Component where
  | root
  | here
  | up
  | name (segment : String)
  deriving DecidableEq, Repr

namespace Component

def text : Component → String
  | root => "/"
  | here => "."
  | up => ".."
  | name segment => segment

def le : Component → Component → Bool
  | root, _ => true
  | here, c => c != root
  | up, c => c != root && c != here
  | name s, name t => s ≤ t
  | name _, _ => false

def listLe : List Component → List Component → Bool
  | [], _ => true
  | _ :: _, [] => false
  | a :: as, b :: bs => if a = b then listLe as bs else le a b

end Component

namespace Path

def isAbsolute (path : String) : Bool := path.toList.head? = some '/'

def componentOf? (segment : List Char) : Option Component :=
  if segment = [] ∨ segment = ['.'] then none
  else if segment = ['.', '.'] then some .up
  else some (.name (String.ofList segment))

/-- The part of a path that its first step takes up when that step is no name: the slash of an
absolute path, or a `.` at the front. -/
def splitFront (cs : List Char) : List Char × List Char :=
  match cs with
  | '/' :: rest => (['/'], rest)
  | ['.'] => (['.'], [])
  | '.' :: '/' :: rest => (['.'], '/' :: rest)
  | _ => ([], cs)

def frontComponent (front : List Char) : List Component :=
  match front with
  | ['/'] => [.root]
  | ['.'] => [.here]
  | _ => []

def components (path : String) : List Component :=
  let (front, body) := splitFront path.toList
  frontComponent front ++ (body.splitOn '/').filterMap componentOf?

def fileName? (path : String) : Option String :=
  match (components path).getLast? with
  | some (.name segment) => some segment
  | _ => none

/-- What follows the last dot of the last step, unless that dot is its first character. -/
def extension? (path : String) : Option String := do
  let file ← fileName? path
  match file.toList.reverse.dropWhile (· ≠ '.') with
  | _ :: _ :: _ => some (String.ofList (file.toList.reverse.takeWhile (· ≠ '.')).reverse)
  | _ => none

def isEmptySegment (segment : List Char) : Bool := segment = [] || segment = ['.']

/-- The path without its last step, as it is written. The root and the empty path have no
parent. -/
def parent? (path : String) : Option String :=
  let (front, body) := splitFront path.toList
  match (body.splitOn '/').reverse.dropWhile isEmptySegment with
  | _ :: rest =>
    let kept := (rest.dropWhile isEmptySegment).reverse
    some (String.ofList (front ++ ['/'].intercalate kept))
  | [] => if front = ['.'] then some "" else none

/-- A path taken from the directory `base`. An absolute path stays as it is. -/
def join (base path : String) : String :=
  if isAbsolute path then path
  else if base = "" ∨ base.toList.getLast? = some '/' then base ++ path
  else base ++ "/" ++ path

def le (p q : String) : Bool := Component.listLe (components p) (components q)

end Path

end SectionCompiler
