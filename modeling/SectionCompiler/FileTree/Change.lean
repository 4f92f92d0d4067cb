import SectionCompiler.FileTree
/-! The changes that lead from one file tree to another that lacks none of its names. -/

namespace SectionCompiler

inductive Change where
  | makeFolder (way : List String)
  | writeFile (way : List String) (content : Content)
  deriving DecidableEq, Repr

namespace Folder

def hasFolder (f : Folder) (way : List String) : Bool :=
  match f.find? way with
  | some (.folder _) => true
  | _ => false

/-- The changes that bring a tree up to date with what stands in a folder at the given way. A folder
is made before anything is written into it. -/
def changesBelow (before : Folder) (way : List String) : Folder → List Change
  | empty => []
  | file name content others =>
    let here := way ++ [name]
    let first := if before.find? here = some (.file content) then [] else [Change.writeFile here content]
    first ++ before.changesBelow way others
  | folder name inside others =>
    let here := way ++ [name]
    let first := if before.hasFolder here then [] else [Change.makeFolder here]
    first ++ before.changesBelow here inside ++ before.changesBelow way others

def changes (before after : Folder) : List Change := before.changesBelow [] after

end Folder

end SectionCompiler
