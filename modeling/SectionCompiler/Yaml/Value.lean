import SectionCompiler.Yaml.Node
import SectionCompiler.Yaml.Number
/-! The values of a YAML document. Aliases are replaced by the nodes that they name, plain scalars
are told apart by what they spell, and a tag of one's own stays with its value. Keys of a mapping
are distinct. -/

namespace SectionCompiler.Yaml

inductive Value where
  | null
  | bool (b : Bool)
  | number (n : Number)
  | string (text : String)
  | sequence (items : List Value)
  | mapping (entries : List (Value × Value))
  | tagged (tag : String) (value : Value)
  deriving Repr, Inhabited

def maxDepth : Nat := 128

/-- Equality of keys of nesting at most `depth`: the order of the entries of a mapping does not
count. -/
def Value.same : Nat → Value → Value → Bool
  | 0, _, _ => false
  | depth + 1, a, b =>
    match a, b with
    | .null, .null => true
    | .bool a, .bool b => a = b
    | .number a, .number b => a.same b
    | .string a, .string b => a = b
    | .sequence a, .sequence b => a.length = b.length && (a.zip b).all fun (x, y) => x.same depth y
    | .mapping a, .mapping b =>
      a.length = b.length &&
        a.all fun (k, v) => b.any fun (l, w) => k.same depth l && v.same depth w
    | .tagged s a, .tagged t b => s = t && a.same depth b
    | _, _ => false

namespace Tree

/-- The node that an anchor names: of anchors with one number the last. -/
def anchored? (t : Tree) (anchor : Nat) : Option Node :=
  let all := t.anchored.filter (·.anchor = anchor)
  (all.foldl (fun best a => match best with
    | some (b : Anchored) => if b.order < a.order then some a else best
    | none => some a) none).map (·.node)

/-- How often aliases of a document of `size` may be followed. -/
def maxAliases (t : Tree) : Nat := t.size * 100

/-- Follows an alias. The state counts how often that has been done. -/
def follow (t : Tree) : Node → StateT Nat Option Node
  | .alias anchor => do
    modify (· + 1)
    if t.maxAliases < (← get) then failure
    else StateT.lift (t.anchored? anchor)
  | node => return node

end Tree

namespace Node

/-- The tag of one's own that a node has, without its exclamation mark if there is more. -/
def ownTag? (tag : Option String) : Option String :=
  match tag with
  | some tag =>
    match tag.toList with
    | ['!'] => some tag
    | '!' :: rest => some (String.ofList rest)
    | _ => none
  | none => none

def standardTag (name : String) : String := "tag:yaml.org,2002:" ++ name

def holds (n : Int) : Bool := -(Nat.pow 2 63 : Int) ≤ n && n < (Nat.pow 2 64 : Int)

/-- Whole numbers that are read as such, whether a value can hold them or not. -/
def isReadable (n : Int) : Bool := -(Nat.pow 2 127 : Int) ≤ n && n < (Nat.pow 2 128 : Int)

def readable? (word : List Char) : Option Int := (whole? word).filter isReadable

def wholeValue (n : Int) : Option Value := if holds n then some (.number (.whole n)) else none

def plainValue (word : List Char) : Option Value :=
  if isNull word then some .null
  else match bool? word with
    | some b => some (.bool b)
    | none =>
      match readable? word with
      | some n => wholeValue n
      | none =>
        match if hasLeadingZero word then none else float? word with
        | some x => some (.number (.float x))
        | none => some (.string (String.ofList word))

def standardValue (tag : String) (word : List Char) : Option Value :=
  if tag = standardTag "bool" then (bool? word).map .bool
  else if tag = standardTag "int" then (readable? word).bind wholeValue
  else if tag = standardTag "float" then (float? word).map fun x => .number (.float x)
  else if tag = standardTag "null" then if word ≠ [] ∧ isNull word then some .null else none
  else some (.string (String.ofList word))

/-- What a scalar spells, when its own tag, if it has one, is already seen to. -/
def scalarValue (tag : Option String) (style : Style) (text : String) : Option Value :=
  match tag with
  | some tag =>
    if (ownTag? (some tag)).isNone then standardValue tag text.toList
    else if style = .plain then plainValue text.toList
    else some (.string text)
  | none => if style = .plain then plainValue text.toList else some (.string text)

def withTag (tag : Option String) (value : Value) : Value :=
  match ownTag? tag with
  | some own => .tagged own value
  | none => value

/-- The entries of a mapping, unless two keys are the same. -/
def distinct (entries : List (Value × Value)) : Option (List (Value × Value)) :=
  entries.foldlM (fun done e =>
    if done.any fun d => d.1.same (2 * maxDepth + 2) e.1 then none else some (done ++ [e])) []

def value (t : Tree) : Nat → Node → StateT Nat Option Value
  | depth, node => do
    match ← t.follow node with
    | .alias _ => failure
    | .scalar tag style text => StateT.lift ((scalarValue tag style text).map (withTag tag))
    | .sequence tag items =>
      match depth with
      | 0 => failure
      | depth + 1 =>
        let items ← items.mapM (value t depth)
        return withTag tag (.sequence items)
    | .mapping tag entries =>
      match depth with
      | 0 => failure
      | depth + 1 =>
        let entries ← entries.mapM fun (k, v) => do
          let k ← value t depth k
          return (k, ← value t depth v)
        StateT.lift ((distinct entries).map fun entries => withTag tag (.mapping entries))

end Node

/-- The value of a YAML text of at most one document. -/
def value? (text : String) : Option Value := do
  match ← parse? text with
  | none => return .null
  | some tree => (Node.value tree maxDepth tree.root).run' 0

end SectionCompiler.Yaml
