import SectionCompiler.Disk
/-! Finding the settings file of a project. The folders from a path upwards are listed, up to the
folder that holds the mark of a project, and searched from the deepest one on. -/

namespace SectionCompiler.Settings

/-- The names of settings files, the preferred one first. -/
def fileNames : List String := ["iniweave.toml", "iniweave.yaml", "iniweave.yml"]

/-- The name in the topmost folder of a project. -/
def projectMark : String := ".git"

/-- A path and its parents, of which there are at most `fuel`. With a mark, it goes up to the first
folder that holds something of that name. -/
def climb (d : Disk) (mark? : Option String) : Nat → String → List String
  | 0, path => [path]
  | fuel + 1, path =>
    if mark?.any fun mark => d.has (Path.join path mark) then [path]
    else match Path.parent? path with
      | some parent => path :: climb d mark? fuel parent
      | none => [path]

/-- A path and its ancestors, the topmost first. A path has no more parents than characters. -/
def ancestors (d : Disk) (start : String) (mark? : Option String) : List String :=
  (climb d mark? start.length start).reverse

def inFolder? (d : Disk) (folder : String) : Option String :=
  (fileNames.map (Path.join folder)).find? fun path => d.isFile path

/-- The nearest settings file, which is searched for from the deepest folder on. -/
def find? (d : Disk) (start : String) : Option String :=
  (ancestors d start (some projectMark)).reverse.findSome? (inFolder? d)

def findHere? (d : Disk) : Option String := find? d d.herePath

end SectionCompiler.Settings
