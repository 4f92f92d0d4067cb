import SectionCompiler.Settings.Schema
import SectionCompiler.Yaml.Value
/-! Settings in YAML. A text may be any scalar; truth values, numbers and null have to be plain
words. What stands under an unknown key is not looked at, so aliases in it are not followed. -/

namespace SectionCompiler.Settings

open Yaml (Style Tree)

namespace YamlReader

/-- Reading a node. The state counts how often aliases have been followed. -/
abbrev Reading := StateT Nat Option

def reading {α : Type} (a : Option α) : Reading α := StateT.lift a

def isWord (type : String) (tag : Option String) (style : Style) : Bool :=
  style = .plain || style = .literal && tag = some (Yaml.Node.standardTag type)

def isEmptyNode : Yaml.Node → Bool
  | .scalar _ style text => style = .plain && text = ""
  | _ => false

/-- The node, unless it is null. The tag of null allows null only. -/
def present? (t : Tree) (n : Yaml.Node) : Reading (Option Yaml.Node) := do
  match ← t.follow n with
  | .scalar tag .plain text =>
    let node := Yaml.Node.scalar tag .plain text
    match tag with
    | none => return if Yaml.isNull text.toList then none else some node
    | some tag =>
      if tag = Yaml.Node.standardTag "null" then
        if text ≠ "" ∧ Yaml.isNull text.toList then return none else failure
      else return some node
  | node => return some node

def text (t : Tree) (n : Yaml.Node) : Reading String := do
  match ← t.follow n with
  | .scalar _ _ text => return text
  | _ => failure

def truth (t : Tree) (n : Yaml.Node) : Reading Bool := do
  match ← t.follow n with
  | .scalar tag style text =>
    if isWord "bool" tag style then reading (Yaml.bool? text.toList) else failure
  | _ => failure

/-- The number below 2^64 that a word without a minus sign spells. -/
def natural? (word : List Char) : Option Nat :=
  if word.head? = some '-' then none
  else (Yaml.whole? word).map Int.toNat |>.filter (· < Nat.pow 2 64)

def natural (t : Tree) (n : Yaml.Node) : Reading Nat := do
  match ← t.follow n with
  | .scalar tag style text =>
    if isWord "int" tag style then reading (natural? text.toList) else failure
  | _ => failure

/-- A word is chosen by its text, or by an own tag of null. -/
def choice (t : Tree) (n : Yaml.Node) : Reading String := do
  match ← t.follow n with
  | .scalar tag style text =>
    match Yaml.Node.ownTag? tag with
    | none => return text
    | some own => if style = .plain ∧ Yaml.isNull text.toList then return own else failure
  | _ => failure

def items (t : Tree) (n : Yaml.Node) : Reading (List Yaml.Node) := do
  match ← t.follow n with
  | .sequence _ nodes => return nodes
  | node => if isEmptyNode node then return [] else failure

/-- The entries of a mapping, in which no known key may stand twice. A sequence gives the values
of the keys in their order. -/
def record (t : Tree) (keys : List String) (n : Yaml.Node) :
    Reading (List (String × Yaml.Node)) := do
  match ← t.follow n with
  | .mapping _ entries =>
    let entries ← entries.mapM fun (k, v) => do return (← text t k, v)
    if ((entries.map Prod.fst).filter (· ∈ keys)).Nodup then return entries else failure
  | .sequence _ nodes =>
    if nodes.length ≤ keys.length then return keys.zip nodes else failure
  | node => if isEmptyNode node then return [] else failure

def reader (t : Tree) : Reader Reading Yaml.Node where
  fail := failure
  present? := present? t
  text := text t
  truth := truth t
  natural := natural t
  choice := choice t
  items := items t
  record := record t

end YamlReader

def ofYaml? (content : String) : Option (Layer × List KeyPath) := do
  match ← Yaml.parse? content with
  | none => return ({}, [])
  | some tree => ((YamlReader.reader tree).layer tree.root).run' 0

end SectionCompiler.Settings
