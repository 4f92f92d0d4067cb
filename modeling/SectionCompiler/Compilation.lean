import SectionCompiler.Resolution
/-! Compilation of a library: every section of every document is resolved, in the order of the
document names, and what one document has resolved the later ones reuse. -/

namespace SectionCompiler

inductive Policy where
  /-- The first such document ends the compilation. -/
  | abort
  /-- Such a document is left out. -/
  | skip
  deriving DecidableEq, Repr, Inhabited

namespace Compilation

/-- The compiled documents and the names of those left out, both in name order. -/
structure Result where
  documents : List (String × Document)
  skipped : List String
  deriving DecidableEq, Repr

inductive Fault where
  | unknownDocument (name : String)
  | within (document : String) (cause : Resolution.Fault)
  deriving DecidableEq, Repr

def Fault.message : Fault → String
  | unknownDocument name => (Resolution.Fault.unknownDocument name).message
  | within document cause => s!"In {document}: {cause.message}"

open Resolution (Memory)

def resolveAll {m : Type → Type} [Monad m] (resolve : Section → m Section)
    (document : Document) : m Document := do
  let sections ← document.entries.mapM fun (heading, content) => do
    return (heading, ← resolve content)
  return Keyed.ofList sections

def compileDocument (s : Sources) (name : String) (m : Memory) : Except Fault Document × Memory :=
  match s.library.get? name with
  | none => (.error (.unknownDocument name), m)
  | some document =>
    match resolveAll (Resolution.resolve s (some name) []) document m with
    | (.ok compiled, m) => (.ok compiled, m)
    | (.error cause, m) => (.error (.within name cause), m)

def Result.add (r : Result) (name : String) (document : Document) : Result :=
  { r with documents := r.documents ++ [(name, document)] }

def Result.skip (r : Result) (name : String) : Result :=
  { r with skipped := r.skipped ++ [name] }

def compileNames (s : Sources) (policy : Policy) :
    List String → Result → Memory → Except Fault Result × Memory
  | [], done, m => (.ok done, m)
  | name :: rest, done, m =>
    match compileDocument s name m, policy with
    | (.ok document, m), _ => compileNames s policy rest (done.add name document) m
    | (.error _, m), .skip => compileNames s policy rest (done.skip name) m
    | (.error fault, m), .abort => (.error fault, m)

def compile (s : Sources) (policy : Policy) (m : Memory) : Except Fault Result × Memory :=
  compileNames s policy s.library.names ⟨[], []⟩ m

end Compilation

end SectionCompiler
