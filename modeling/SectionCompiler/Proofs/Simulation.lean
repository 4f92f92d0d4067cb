import SectionCompiler.Compilation

/-! Two ways to run the same assembly. A section is put together alike in every monad, so a relation
between the steps of two monads that sequencing keeps goes over from the references of a section to
the section, and from the sections of a document to the document. -/

namespace SectionCompiler

def Section.references (content : Section) : List String :=
  content.entries.flatMap fun e =>
    if Directive.ofKey? e.1 = some .inherit then e.2.strings else []

theorem Section.mem_references_iff {content : Section} {raw : String} :
    raw ∈ content.references ↔ ∃ e ∈ content.entries,
      Directive.ofKey? e.1 = some .inherit ∧ raw ∈ e.2.strings := by
  simp only [references, List.mem_flatMap]
  refine exists_congr fun e => and_congr_right fun _ => ?_
  split <;> simp_all

open Resolution (Fault expandEntry assemble)

/-- A relation between the steps of two monads that sequencing keeps. -/
structure Simulation (m n : Type → Type) [Monad m] [MonadExcept Fault m] [Monad n]
    [MonadExcept Fault n] where
  rel : {α : Type} → m α → n α → Prop
  pure_rel : ∀ {α : Type} (a : α), rel (pure a) (pure a)
  throw_rel : ∀ {α : Type} (name : String),
    rel (throw (.unknownTemplate name) : m α) (throw (.unknownTemplate name))
  bind_rel : ∀ {α β : Type} {x : m α} {y : n α} {f : α → m β} {g : α → n β},
    rel x y → (∀ a, rel (f a) (g a)) → rel (x >>= f) (y >>= g)

namespace Simulation

variable {m n : Type → Type} [Monad m] [MonadExcept Fault m] [LawfulMonad m] [Monad n]
  [MonadExcept Fault n] [LawfulMonad n] (S : Simulation m n)

include S in
theorem mapM_rel {α β : Type} {xs : List α} {f : α → m β} {g : α → n β}
    (h : ∀ x ∈ xs, S.rel (f x) (g x)) : S.rel (xs.mapM f) (xs.mapM g) := by
  induction xs with
  | nil => simpa using S.pure_rel []
  | cons x rest ih =>
    simp only [List.mapM_cons]
    refine S.bind_rel (h x List.mem_cons_self) fun b => ?_
    refine S.bind_rel (ih fun y hy => h y (List.mem_cons_of_mem _ hy)) fun bs => ?_
    exact S.pure_rel _

theorem expandEntry_rel {refer : String → m Section} {refer' : String → n Section}
    {templates : Option TemplateStore} {e : Entry}
    (h : Directive.ofKey? e.1 = some .inherit → ∀ raw ∈ e.2.strings,
      S.rel (refer raw) (refer' raw)) :
    S.rel (expandEntry refer templates e) (expandEntry refer' templates e) := by
  unfold expandEntry
  split
  · exact S.pure_rel _
  · next hd =>
    exact S.bind_rel (S.mapM_rel (h hd)) fun parts => S.pure_rel _
  · exact S.pure_rel _
  · split
    · exact S.pure_rel _
    · exact S.throw_rel _

/-- Related references make related sections. -/
theorem assemble_rel {refer : String → m Section} {refer' : String → n Section}
    {templates : Option TemplateStore} {content : Section}
    (h : ∀ raw ∈ content.references, S.rel (refer raw) (refer' raw)) :
    S.rel (assemble refer templates content) (assemble refer' templates content) := by
  unfold assemble
  refine S.bind_rel (S.mapM_rel fun e he => ?_) fun parts => S.pure_rel _
  exact S.expandEntry_rel fun hd raw hr => h raw (Section.mem_references_iff.2 ⟨e, he, hd, hr⟩)

theorem resolveAll_rel {resolve : Section → m Section} {resolve' : Section → n Section}
    {document : Document} (h : ∀ e ∈ document.entries, S.rel (resolve e.2) (resolve' e.2)) :
    S.rel (Compilation.resolveAll resolve document) (Compilation.resolveAll resolve' document) := by
  unfold Compilation.resolveAll
  refine S.bind_rel (S.mapM_rel fun e he => ?_) fun sections => S.pure_rel _
  exact S.bind_rel (h e he) fun content => S.pure_rel _

end Simulation

end SectionCompiler
