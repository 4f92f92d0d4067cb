import SectionCompiler.Template
/-! The templates of a build by name. The sections of a template file go in under
`file:section`, and the only section of a file under `file` as well. -/

namespace SectionCompiler

abbrev TemplateStore := Catalog Template

namespace TemplateStore

def add (store : TemplateStore) (name : String) (body : Section) :
    Except Template.Malformed TemplateStore :=
  (Template.ofBody name body).map fun t => store.insert name t

/-- Adds bodies one after another and stops at the first malformed one. What was stored before
it stays stored. -/
def addAll (store : TemplateStore) :
    List (String × Section) → Except Template.Malformed Unit × TemplateStore
  | [] => (.ok (), store)
  | (name, body) :: rest =>
    match store.add name body with
    | .ok store => store.addAll rest
    | .error e => (.error e, store)

/-- The names under which the sections of a file are stored, in the order of storing. -/
def bindings (stem : String) (file : Document) : List (String × Section) :=
  let all := file.entries.map fun (name, body) => (stem ++ ":" ++ name, body)
  match file.entries with
  | [(_, body)] => (stem, body) :: all
  | _ => all

def addFile (store : TemplateStore) (stem : String) (file : Document) :
    Except Template.Malformed Unit × TemplateStore :=
  store.addAll (bindings stem file)

/-- The template for a use of `name`. Without a template of that very name, a scalar argument is
taken for the name of a section in a template file. -/
def find? (store : TemplateStore) (name : String) (argument : Value) : Option Template :=
  match store.get? name, argument with
  | some t, _ => some t
  | none, .scalar part => store.get? (name ++ ":" ++ part)
  | none, .list _ => none

def expand? (store : TemplateStore) (name : String) (argument : Value) : Option Section :=
  (store.find? name argument).map (·.expand argument.arguments)

end TemplateStore

end SectionCompiler
