/-! File trees: folders that hold files and folders by name. -/

namespace SectionCompiler

/-- What a file holds: a text, or bytes that are no text in UTF-8. -/
inductive Content where
  | text (content : String)
  | bytes (content : List UInt8)
  deriving DecidableEq, Repr

def Content.ofBytes (bytes : ByteArray) : Content :=
  match String.fromUTF8? bytes with
  | some t => .text t
  | none => .bytes bytes.toList

/-- A folder, given by its first entry and the folder of the other entries. -/
inductive Folder where
  | empty
  | file (name : String) (content : Content) (others : Folder)
  | folder (name : String) (inside : Folder) (others : Folder)
  deriving DecidableEq, Repr, Inhabited

inductive Node where
  | file (content : Content)
  | folder (inside : Folder)
  deriving DecidableEq, Repr

namespace Folder

def child? (key : String) : Folder → Option Node
  | empty => none
  | file name content others => if name = key then some (.file content) else others.child? key
  | folder name inside others => if name = key then some (.folder inside) else others.child? key

def ofNode (name : String) (node : Node) (others : Folder) : Folder :=
  match node with
  | .file content => file name content others
  | .folder inside => folder name inside others

def put (key : String) (node : Node) : Folder → Folder
  | empty => ofNode key node empty
  | file name content others =>
    if name = key then ofNode key node others else file name content (others.put key node)
  | folder name inside others =>
    if name = key then ofNode key node others else folder name inside (others.put key node)

def find? (f : Folder) : List String → Option Node
  | [] => some (.folder f)
  | name :: way =>
    match f.child? name with
    | some (.folder inside) => inside.find? way
    | some (.file content) => if way = [] then some (.file content) else none
    | none => none

/-- Puts a node at the end of a way. Folders that are missing on the way come into being. -/
def putAt (f : Folder) (node : Node) : List String → Folder
  | [] => f
  | [name] => f.put name node
  | name :: way =>
    match f.child? name with
    | some (.folder inside) => f.put name (.folder (inside.putAt node way))
    | _ => f.put name (.folder (empty.putAt node way))

def files : Folder → List (List String × Content)
  | empty => []
  | file name content others => ([name], content) :: others.files
  | folder name inside others =>
    inside.files.map (fun (way, content) => (name :: way, content)) ++ others.files

end Folder

end SectionCompiler
