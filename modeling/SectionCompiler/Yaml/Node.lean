import SectionCompiler.Yaml.Scan
/-! The nodes of a YAML document. An alias stays an alias; a document keeps the nodes that have
anchors beside its root. -/

namespace SectionCompiler.Yaml

inductive Node where
  | scalar (tag : Option String) (style : Style) (text : String)
  | sequence (tag : Option String) (items : List Node)
  | mapping (tag : Option String) (entries : List (Node × Node))
  /-- The node with the anchor of a number. -/
  | alias (anchor : Nat)
  deriving Repr, Inhabited

/-- A node that an anchor names. The anchor that comes last has the greatest order. -/
structure Anchored where
  anchor : Nat
  order : Nat
  node : Node
  deriving Repr

structure Tree where
  root : Node
  anchored : List Anchored
  /-- The number of scalars and aliases and of ends of collections. -/
  size : Nat
  deriving Repr

namespace Node

structure Reading where
  tokens : List Token
  /-- The replacements of tag handles. -/
  handles : List (List Char × List Char)
  /-- The numbers of the anchors by name. -/
  names : List (List Char × Nat)
  anchored : List Anchored
  order : Nat
  size : Nat

abbrev Read := StateT Reading Option

namespace Read

def peek? : Read (Option Token) := do return (← get).tokens.head?

def skip : Read Unit := modify fun r => { r with tokens := r.tokens.tail }

def fail {α : Type} : Read α := fun _ => none

def count (n : Nat) : Read Unit := modify fun r => { r with size := r.size + n }

/-- Passes over the next token, which has to be `t`. -/
def expect (t : Token) : Read Unit := do
  if (← peek?) = some t then skip else fail

/-- Whether the next token is one of some tokens, the end of the text being none. -/
def next (ts : List Token) : Read Bool := do
  match ← peek? with
  | some t => return ts.contains t
  | none => return false

def tagOf (handle suffix : List Char) : Read String := do
  if handle = [] then return String.ofList suffix
  match (← get).handles.lookup handle with
  | some before => return String.ofList (before ++ suffix)
  | none => fail

/-- Numbers an anchor by the number of names so far, and notes where it stands in the order. -/
def numberAnchor (name : List Char) : Read (Nat × Nat) := do
  let r ← get
  let number := r.names.length
  let names := if r.names.any (·.1 = name) then
      r.names.map fun (n, k) => (n, if n = name then number else k)
    else r.names ++ [(name, number)]
  set { r with names, order := r.order + 1 }
  return (number, r.order)

def keepAnchored (a : Option (Nat × Nat)) (node : Node) : Read Node := do
  match a with
  | some (anchor, order) =>
    modify fun r => { r with anchored := ⟨anchor, order, node⟩ :: r.anchored }
  | none => pure ()
  return node

def properties : Read (Option (List Char) × Option (List Char × List Char)) := do
  match ← peek? with
  | some (.anchor name) =>
    skip
    match ← peek? with
    | some (.tag handle suffix) => skip; return (some name, some (handle, suffix))
    | _ => return (some name, none)
  | some (.tag handle suffix) =>
    skip
    match ← peek? with
    | some (.anchor name) => skip; return (some name, some (handle, suffix))
    | _ => return (none, some (handle, suffix))
  | _ => return (none, none)

/-- The tag of a scalar. The tag that is only an exclamation mark says nothing about a scalar. -/
def scalarTag (tag : Option String) : Option String := if tag = some "!" then none else tag

def emptyScalar (tag : Option String) : Read Node := do
  count 1
  return .scalar tag .plain ""

structure Place where
  /-- A block may open. -/
  block : Bool
  /-- A sequence may stand without being indented. -/
  flush : Bool

def blockPlace : Place := ⟨true, false⟩

def entryPlace : Place := ⟨true, true⟩

def flowPlace : Place := ⟨false, false⟩

mutual

/-- Reads a node; `fuel` bounds how deep the reading goes. -/
def node : Nat → Place → Read Node
  | 0, _ => fail
  | fuel + 1, place => do
    match ← peek? with
    | some (.alias name) =>
      skip
      match (← get).names.lookup name with
      | some n => count 1; return .alias n
      | none => fail
    | _ =>
      let (name, tag) ← properties
      let tag ← tag.mapM fun (handle, suffix) => tagOf handle suffix
      match ← peek? with
      | some .blockEntry =>
        if place.flush then
          let a ← name.mapM numberAnchor
          keepAnchored a (.sequence tag (← flushSequence fuel []))
        else content fuel place name tag
      | _ => content fuel place name tag

def content : Nat → Place → Option (List Char) → Option String → Read Node
  | 0, _, _, _ => fail
  | fuel + 1, place, name, tag => do
    match ← peek? with
    | some (.scalar style text) =>
      skip
      count 1
      keepAnchored (← name.mapM numberAnchor) (.scalar (scalarTag tag) style (String.ofList text))
    | some .flowSequence =>
      skip
      let a ← name.mapM numberAnchor
      keepAnchored a (.sequence tag (← flowSequence fuel []))
    | some .flowMapping =>
      skip
      let a ← name.mapM numberAnchor
      keepAnchored a (.mapping tag (← flowMapping fuel []))
    | some .blockSequence =>
      if !place.block then fail
      skip
      let a ← name.mapM numberAnchor
      keepAnchored a (.sequence tag (← blockSequence fuel []))
    | some .blockMapping =>
      if !place.block then fail
      skip
      let a ← name.mapM numberAnchor
      keepAnchored a (.mapping tag (← blockMapping fuel []))
    | _ =>
      if name.isNone && tag.isNone then fail
      let a ← name.mapM numberAnchor
      keepAnchored a (← emptyScalar tag)

/-- The entries of a block sequence, the earlier ones being read. -/
def blockSequence : Nat → List Node → Read (List Node)
  | 0, _ => fail
  | fuel + 1, items => do
    if ← next [.blockEntry] then
      skip
      let item ← if ← next [.blockEntry, .blockEnd] then emptyScalar none
        else node fuel blockPlace
      blockSequence fuel (items ++ [item])
    else
      expect .blockEnd
      count 2
      return items

/-- The entries of a sequence in a block mapping that is as deep as the mapping. -/
def flushSequence : Nat → List Node → Read (List Node)
  | 0, _ => fail
  | fuel + 1, items => do
    if ← next [.blockEntry] then
      skip
      let item ← if ← next [.blockEntry, .key, .value, .blockEnd] then emptyScalar none
        else node fuel blockPlace
      flushSequence fuel (items ++ [item])
    else
      count 2
      return items

def blockMapping : Nat → List (Node × Node) → Read (List (Node × Node))
  | 0, _ => fail
  | fuel + 1, entries => do
    if ← next [.key] then
      skip
      let key ← if ← next [.key, .value, .blockEnd] then emptyScalar none
        else node fuel entryPlace
      let value ←
        if ← next [.value] then do
          skip
          if ← next [.key, .value, .blockEnd] then emptyScalar none
          else node fuel entryPlace
        else emptyScalar none
      blockMapping fuel (entries ++ [(key, value)])
    else
      expect .blockEnd
      count 2
      return entries

def flowSequence : Nat → List Node → Read (List Node)
  | 0, _ => fail
  | fuel + 1, items => do
    if ← next [.flowSequenceEnd] then
      skip
      count 2
      return items
    if items ≠ [] then expect .flowEntry
    if ← next [.flowSequenceEnd] then
      skip
      count 2
      return items
    if ← next [.key] then
      skip
      let key ← if ← next [.value, .flowEntry, .flowSequenceEnd] then do
          skip
          emptyScalar none
        else node fuel flowPlace
      let value ←
        if ← next [.value] then do
          skip
          if ← next [.flowEntry, .flowSequenceEnd] then emptyScalar none
          else node fuel flowPlace
        else emptyScalar none
      count 2
      flowSequence fuel (items ++ [.mapping none [(key, value)]])
    else flowSequence fuel (items ++ [← node fuel flowPlace])

def flowMapping : Nat → List (Node × Node) → Read (List (Node × Node))
  | 0, _ => fail
  | fuel + 1, entries => do
    if ← next [.flowMappingEnd] then
      skip
      count 2
      return entries
    if !entries.isEmpty then expect .flowEntry
    if ← next [.flowMappingEnd] then
      skip
      count 2
      return entries
    if ← next [.key] then
      skip
      let key ← if ← next [.value, .flowEntry, .flowMappingEnd] then emptyScalar none
        else node fuel flowPlace
      let value ←
        if ← next [.value] then do
          skip
          if ← next [.flowEntry, .flowMappingEnd] then emptyScalar none
          else node fuel flowPlace
        else emptyScalar none
      flowMapping fuel (entries ++ [(key, value)])
    else
      let key ← node fuel flowPlace
      flowMapping fuel (entries ++ [(key, ← emptyScalar none)])

end

def directives : Nat → Bool → Read Bool
  | 0, seen => return seen
  | fuel + 1, seen => do
    match ← peek? with
    | some (.version major minor) =>
      skip
      if seen || major ≠ 1 || (minor ≠ 1 && minor ≠ 2) then fail
      directives fuel true
    | some (.tagDirective handle replacement) =>
      skip
      if ((← get).handles.any fun h => h.1 = handle) then fail
      modify fun r => { r with handles := r.handles ++ [(handle, replacement)] }
      directives fuel seen
    | _ => return seen

/-- The handles that stand for something without a directive. -/
def standardHandles : List (List Char × List Char) :=
  [(['!'], ['!']), (['!', '!'], "tag:yaml.org,2002:".toList)]

def skipDocumentEnds : Nat → Read Unit
  | 0 => return
  | fuel + 1 => do
    if ← next [.documentEnd] then
      skip
      skipDocumentEnds fuel

def document : Read (Option Node) := do
  let size := (← get).tokens.length
  let addStandard : Read Unit :=
    modify fun r => { r with handles := r.handles ++ standardHandles }
  let fuel := 4 * size + 16
  match ← peek? with
  | none => return none
  | some t =>
    let explicit := match t with
      | .version _ _ | .tagDirective _ _ | .documentStart => true
      | _ => false
    let root ←
      if explicit then do
        let _ ← directives size false
        addStandard
        expect .documentStart
        match ← peek? with
        | none | some (.version _ _) | some (.tagDirective _ _) | some .documentStart
        | some .documentEnd => emptyScalar none
        | _ => node fuel blockPlace
      else do
        addStandard
        node fuel blockPlace
    skipDocumentEnds size
    match ← peek? with
    | none => return some root
    | some _ => fail

end Read

end Node

/-- Reads a YAML text of at most one document. -/
def parse? (text : String) : Option (Option Tree) := do
  let tokens ← tokens? text
  let (root, r) ← Node.Read.document.run ⟨tokens, [], [], [], 0, 0⟩
  return root.map fun root => ⟨root, r.anchored, r.size⟩

end SectionCompiler.Yaml
