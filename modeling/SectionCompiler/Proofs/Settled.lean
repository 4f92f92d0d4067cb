import Mathlib.Data.List.Forall2
import SectionCompiler.Proofs.Direct

/-! When resolution without memory succeeds. A section is put together exactly when each of its
references is followed and each of its templates is found. What a reference then stands for does
not depend on the chain under way, as long as the chain leads to the reference: a chain that does
not is cut off by a cycle, and a reference on a cycle stands for nothing. -/

namespace SectionCompiler.Direct

open Resolution (Fault Chain assemble expandEntry)
open Inheritance Relation

section

variable {α β : Type} {cap : Option Nat}

theorem run_bind_eq_ok {x : Direct α} {f : α → Direct β} {b : β} :
    (x >>= f).run cap = .ok b ↔ ∃ a, x.run cap = .ok a ∧ (f a).run cap = .ok b := by
  rw [ReaderT.run_bind]
  cases h : x.run cap with
  | error fault => simp [bind, Except.bind]
  | ok a => simp [bind, Except.bind]

theorem run_pure_eq_ok {a b : α} : (pure a : Direct α).run cap = .ok b ↔ b = a := by
  rw [ReaderT.run_pure]
  exact ⟨fun h => (Except.ok.inj h).symm, fun h => h ▸ rfl⟩

theorem run_mapM_eq_ok {xs : List α} {ys : List β} {f : α → Direct β} :
    (xs.mapM f).run cap = .ok ys ↔ List.Forall₂ (fun x y => (f x).run cap = .ok y) xs ys := by
  induction xs generalizing ys with
  | nil => rw [List.mapM_nil, run_pure_eq_ok, List.forall₂_nil_left_iff]
  | cons x rest ih =>
    rw [List.mapM_cons, run_bind_eq_ok, List.forall₂_cons_left_iff]
    simp only [run_bind_eq_ok, run_pure_eq_ok, ih]
    grind

end

/-- The entries that one entry turns into, when `yields` tells what references stand for. -/
def Expands (yields : String → Section → Prop) (templates : Option TemplateStore) (e : Entry)
    (part : List Entry) : Prop :=
  match Directive.ofKey? e.1, templates with
  | none, _ => part = [e]
  | some .inherit, _ =>
    ∃ contents, List.Forall₂ yields e.2.strings contents ∧ part = contents.flatMap Section.entries
  | some (.template _), none => part = [e]
  | some (.template name), some templates =>
    ∃ content, templates.expand? name e.2 = some content ∧ part = content.entries

variable {refer : String → Direct Section} {templates : Option TemplateStore} {content v : Section}
  {cap : Option Nat}

theorem run_expandEntry_eq_ok {e : Entry} {part : List Entry} :
    (expandEntry refer templates e).run cap = .ok part ↔
      Expands (fun raw c => (refer raw).run cap = .ok c) templates e part := by
  unfold expandEntry Expands
  cases Directive.ofKey? e.1 with
  | none => exact run_pure_eq_ok
  | some d =>
    cases d with
    | inherit => simp only [run_bind_eq_ok, run_pure_eq_ok, run_mapM_eq_ok]
    | template name =>
      cases templates with
      | none => exact run_pure_eq_ok
      | some store =>
        cases h : store.expand? name e.2 with
        | none => simp [h, throw, throwThe, MonadExceptOf.throw]
        | some c =>
          simp only [h, run_pure_eq_ok, Option.some.injEq, exists_eq_left']

theorem run_assemble_eq_ok :
    (assemble refer templates content).run cap = .ok v ↔
      ∃ parts, List.Forall₂ (Expands (fun raw c => (refer raw).run cap = .ok c) templates)
        content.entries parts ∧ v = Section.fold ⟨parts.flatten⟩ := by
  unfold assemble
  simp only [run_bind_eq_ok, run_pure_eq_ok, run_mapM_eq_ok, run_expandEntry_eq_ok]

def TemplatesFound (templates : Option TemplateStore) (content : Section) : Prop :=
  ∀ store ∈ templates, ∀ e ∈ content.entries, ∀ name,
    Directive.ofKey? e.1 = some (.template name) → store.find? name e.2 ≠ none

theorem exists_forall₂_iff {α β : Type} {R : α → β → Prop} {xs : List α} :
    (∃ ys, List.Forall₂ R xs ys) ↔ ∀ x ∈ xs, ∃ y, R x y := by
  induction xs with
  | nil => simp
  | cons x rest ih =>
    simp only [List.forall₂_cons_left_iff, List.forall_mem_cons, ← ih]
    grind

theorem exists_expands_iff {yields : String → Section → Prop} {e : Entry} :
    (∃ part, Expands yields templates e part) ↔
      (Directive.ofKey? e.1 = some .inherit → ∀ raw ∈ e.2.strings, ∃ c, yields raw c) ∧
        ∀ store ∈ templates, ∀ name, Directive.ofKey? e.1 = some (.template name) →
          store.find? name e.2 ≠ none := by
  unfold Expands
  cases Directive.ofKey? e.1 with
  | none => simp
  | some d =>
    cases d with
    | inherit =>
      rw [← exists_forall₂_iff]
      simp
    | template name =>
      cases templates with
      | none => simp
      | some store =>
        cases h : store.find? name e.2 <;> simp [TemplateStore.expand?, h]

/-- A section is put together exactly when its references are followed and its templates are
found. -/
theorem exists_run_assemble_iff :
    (∃ v, (assemble refer templates content).run cap = .ok v) ↔
      (∀ raw ∈ content.references, ∃ c, (refer raw).run cap = .ok c) ∧
        TemplatesFound templates content := by
  have hparts : (∃ v, (assemble refer templates content).run cap = .ok v) ↔
      ∃ parts, List.Forall₂ (Expands (fun raw c => (refer raw).run cap = .ok c) templates)
        content.entries parts := by
    simp only [run_assemble_eq_ok]
    constructor
    · rintro ⟨v, parts, h, -⟩
      exact ⟨parts, h⟩
    · rintro ⟨parts, h⟩
      exact ⟨_, parts, h, rfl⟩
  rw [hparts, exists_forall₂_iff]
  simp only [exists_expands_iff, TemplatesFound]
  constructor
  · intro h
    refine ⟨fun raw hr => ?_, fun store hs e he => (h e he).2 store hs⟩
    obtain ⟨e, he, hd, hm⟩ := Section.mem_references_iff.1 hr
    exact (h e he).1 hd raw hm
  · rintro ⟨hr, ht⟩ e he
    exact ⟨fun hd raw hm => hr raw (Section.mem_references_iff.2 ⟨e, he, hd, hm⟩),
      fun store hs => ht store hs e he⟩

/-- The recursion of a resolution without memory. -/
theorem follow_eq_ok_iff {l : Library} {put : Assembly} {chain : Chain} {r : Reference} :
    follow l put chain r cap = .ok v ↔
      r.key ∉ chain ∧ cap.filter (· ≤ chain.length) = none ∧ ∃ content, target? l r = some content ∧
        put (followRaw l put (some r.document) (chain.extend r.key)) content cap = .ok v := by
  rw [follow_apply]
  simp only [← seek_eq_ok_iff]
  split
  · simp [*]
  · split
    · simp [*]
    · cases seek l r <;> simp [*]

theorem followRaw_eq_ok_iff {l : Library} {put : Assembly} {caller : Option String}
    {chain : Chain} {raw : String} :
    followRaw l put caller chain raw cap = .ok v ↔
      ∃ r, Reference.parse raw caller = .ok r ∧ follow l put chain r cap = .ok v := by
  rw [followRaw_apply, read]
  cases Reference.parse raw caller <;> simp [Except.mapError]

variable {l : Library}

/-- What is put together from a section was put together from all references that it names. -/
theorem exists_follow_of_names {chain : Chain} {r t : Reference}
    (h : follow l (folding templates) chain r cap = .ok v) (hn : Inherits l r t) :
    ∃ w, follow l (folding templates) (chain.extend r.key) t cap = .ok w := by
  obtain ⟨-, -, content, hc, hp⟩ := follow_eq_ok_iff.1 h
  obtain ⟨content', hc', raw, hr, hparse⟩ := hn
  obtain rfl := Option.some.inj (hc.symm.trans hc')
  obtain ⟨w, hw⟩ := (exists_run_assemble_iff.1 ⟨v, hp⟩).1 raw hr
  obtain ⟨t', ht', hf⟩ := followRaw_eq_ok_iff.1 hw
  exact ⟨w, Except.ok.inj (hparse.symm.trans ht') ▸ hf⟩

/-- With a reference everything that it reaches was followed. -/
theorem exists_follow_of_reaches {chain : Chain} {r t : Reference}
    (h : follow l (folding templates) chain r cap = .ok v) (ht : ReflTransGen (Inherits l) r t) :
    ∃ chain' w, follow l (folding templates) chain' t cap = .ok w := by
  induction ht with
  | refl => exact ⟨chain, v, h⟩
  | tail _ hs ih =>
    obtain ⟨chain', w, hw⟩ := ih
    exact ⟨_, exists_follow_of_names hw hs⟩

/-- Nothing that a resolved reference reaches is under way. -/
theorem key_not_mem_of_reaches {chain : Chain} {r t : Reference}
    (h : follow l (folding templates) chain r cap = .ok v) (ht : ReflTransGen (Inherits l) r t) :
    t.key ∉ chain := by
  induction ht using ReflTransGen.head_induction_on generalizing chain v with
  | refl => exact (follow_eq_ok_iff.1 h).1
  | head hs _ ih =>
    obtain ⟨w, hw⟩ := exists_follow_of_names h hs
    exact fun hm => ih hw (List.mem_append_left _ hm)

theorem not_cyclic_of_follow {chain : Chain} {r : Reference}
    (h : follow l (folding templates) chain r cap = .ok v) : ¬ TransGen (Inherits l) r r := by
  intro hr
  obtain ⟨t, hs, ht⟩ := TransGen.head'_iff.1 hr
  obtain ⟨w, hw⟩ := exists_follow_of_names h hs
  exact key_not_mem_of_reaches hw ht (List.mem_append_right _ (List.mem_singleton_self _))

end SectionCompiler.Direct
