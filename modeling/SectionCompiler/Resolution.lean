import SectionCompiler.Directive
import SectionCompiler.Reference
import SectionCompiler.Template.Store
/-! Resolution of sections. The entries of inherited sections and of templates are put in the
place of the directives, and the result is folded. What a reference resolves to is remembered, so
that no section is resolved twice. The references under way form a chain; a reference that is on
the chain already is a cycle, and the chain has a greatest length. -/

namespace SectionCompiler

/-- What sections are resolved against. Without templates their directives are plain entries. -/
structure Sources where
  library : Library
  templates : Option TemplateStore
  maxDepth : Nat
  deriving DecidableEq, Repr

namespace Resolution

def defaultDepth : Nat := 64

inductive Fault where
  | reference (fault : Reference.Fault)
  | unknownTemplate (name : String)
  | unknownDocument (name : String)
  | unknownSection (document heading : String)
  | cycle (chain : List String)
  | tooDeep (key : String) (limit : Nat)
  deriving DecidableEq, Repr

def Fault.message : Fault → String
  | reference fault => fault.message
  | unknownTemplate name => s!"Undefined macro: {name}"
  | unknownDocument name => s!"Inherited document not found: {name}"
  | unknownSection document heading => s!"Section '{heading}' not found in {document}"
  | cycle chain => "Cyclic inheritance: " ++ String.intercalate " -> " chain
  | tooDeep key limit => s!"Inheritance of '{key}' exceeds the depth limit of {limit}"

/-- One question put to the cache or to the library, or one answer left in the cache. -/
inductive Access where
  | fetch (key : String) (hit : Bool)
  | look (document : String) (found : Bool)
  | store (key : String)
  deriving DecidableEq, Repr

/-- The resolved references by key, and all accesses so far in order. -/
structure Memory where
  cache : Catalog Section
  log : List Access
  deriving DecidableEq, Repr

def Memory.empty : Memory := ⟨∅, []⟩

instance : EmptyCollection Memory := ⟨Memory.empty⟩

instance : Inhabited Memory := ⟨Memory.empty⟩

/-- The references under way, outermost first. -/
abbrev Chain := List String

def Chain.extend (chain : Chain) (key : String) : Chain := chain ++ [key]

end Resolution

/-- A resolution step: it may fail, and keeps what it has remembered if it does. -/
abbrev Resolution := ExceptT Resolution.Fault (StateM Resolution.Memory)

namespace Resolution

def fetch (key : String) : Resolution (Option Section) :=
  fun m => let found := m.cache.get? key
    (.ok found, { m with log := m.log ++ [.fetch key found.isSome] })

def look (s : Sources) (name : String) : Resolution (Option Document) :=
  fun m => let found := s.library.get? name
    (.ok found, { m with log := m.log ++ [.look name found.isSome] })

def store (key : String) (content : Section) : Resolution Unit :=
  fun m => (.ok (), ⟨m.cache.insert key content, m.log ++ [.store key]⟩)

def seek (s : Sources) (r : Reference) : Resolution Section := do
  match ← look s r.document with
  | none => throw (.unknownDocument r.document)
  | some document =>
    match document.get? r.heading with
    | none => throw (.unknownSection r.document r.heading)
    | some content => return content

section

variable {m : Type → Type} [Monad m] [MonadExcept Fault m]

def expandEntry (refer : String → m Section) (templates : Option TemplateStore) (e : Entry) :
    m (List Entry) :=
  match Directive.ofKey? e.1, templates with
  | none, _ => return [e]
  | some .inherit, _ => return (← e.2.strings.mapM refer).flatMap Section.entries
  | some (.template _), none => return [e]
  | some (.template name), some templates =>
    match templates.expand? name e.2 with
    | some content => return content.entries
    | none => throw (.unknownTemplate name)

/-- Resolves the entries of a section in order and folds the result. -/
def assemble (refer : String → m Section) (templates : Option TemplateStore)
    (content : Section) : m Section := do
  let parts ← content.entries.mapM (expandEntry refer templates)
  return Section.fold ⟨parts.flatten⟩

end

/-- Seeks the section of a reference, has it put together, and remembers the result. -/
def settle (s : Sources) (r : Reference) (put : Section → Resolution Section) :
    Resolution Section := do
  let content ← seek s r
  let resolved ← put content
  store r.key resolved
  return resolved

/-- Resolves a reference in the document `caller`, with `room` more references allowed on the
chain. A remembered reference is answered before the chain is looked at. -/
def referWithin (s : Sources) (room : Nat) (caller : Option String) (chain : Chain)
    (raw : String) : Resolution Section := do
  match Reference.parse raw caller with
  | .error fault => throw (.reference fault)
  | .ok r =>
    match ← fetch r.key with
    | some content => return content
    | none =>
      if r.key ∈ chain then throw (.cycle (chain.extend r.key))
      else match room with
      | 0 => throw (.tooDeep r.key s.maxDepth)
      | room + 1 =>
        settle s r <|
          assemble (referWithin s room (some r.document) (chain.extend r.key)) s.templates

/-- Resolves a reference while the references of `chain` are under way. -/
def refer (s : Sources) (caller : Option String) (chain : Chain) (raw : String) :
    Resolution Section :=
  referWithin s (s.maxDepth - chain.length) caller chain raw

def resolve (s : Sources) (caller : Option String) (chain : Chain) (content : Section) :
    Resolution Section :=
  assemble (refer s caller chain) s.templates content

end Resolution

end SectionCompiler
