import Mathlib.Logic.Relation
import SectionCompiler.Proofs.Maps
import SectionCompiler.Proofs.Reference
import SectionCompiler.Proofs.Simulation

/-! The inheritance graph of a library. Its places are the sections of the library, each as the
reference that names it, and a step leads from a place to a reference that its section names. A
chain of references under way can grow only while places are left, and that carries every
induction along the graph. -/

namespace SectionCompiler

open Resolution (Chain)

namespace Inheritance

def target? (l : Library) (r : Reference) : Option Section :=
  (l.get? r.document).bind fun document => document.get? r.heading

/-- All sections of a library, each as the reference that names it. -/
def places (l : Library) : List Reference :=
  l.entries.flatMap fun e => e.2.keys.map fun heading => ⟨e.1, heading⟩

/-- A section that stands in the document `caller` names a reference. -/
def Names (caller : Option String) (content : Section) (t : Reference) : Prop :=
  ∃ raw ∈ content.references, Reference.parse raw caller = .ok t

def Inherits (l : Library) (r t : Reference) : Prop :=
  ∃ content, target? l r = some content ∧ Names (some r.document) content t

theorem mem_places_iff {l : Library} {r : Reference} :
    r ∈ places l ↔ ∃ content, target? l r = some content := by
  obtain ⟨document, heading⟩ := r
  constructor
  · intro h
    obtain ⟨e, he, hm⟩ := List.mem_flatMap.1 h
    obtain ⟨key, hk, hr⟩ := List.mem_map.1 hm
    obtain ⟨rfl, rfl⟩ := Reference.mk.inj hr
    obtain ⟨content, hc⟩ := Keyed.mem_keys_iff.1 hk
    exact ⟨content, by rw [target?, Catalog.get?_eq_some_iff.2 he]; exact hc⟩
  · rintro ⟨content, h⟩
    obtain ⟨d, hd, hc⟩ := Option.bind_eq_some_iff.1 h
    refine List.mem_flatMap.2 ⟨_, Catalog.get?_eq_some_iff.1 hd, List.mem_map.2 ?_⟩
    exact ⟨heading, Keyed.mem_keys_iff.2 ⟨content, hc⟩, rfl⟩

theorem isPlain_of_names {caller : Option String} {content : Section} {t : Reference}
    (hc : Reference.PlainCaller caller) (h : Names caller content t) : IsPlain t.document := by
  obtain ⟨raw, -, hp⟩ := h
  exact Reference.isPlain_of_parse hc hp

theorem plainCaller_some {name : String} (h : IsPlain name) :
    Reference.PlainCaller (some name) :=
  fun _ he => Option.some.inj he ▸ h

theorem isPlain_of_inherits {l : Library} {r t : Reference} (hr : IsPlain r.document)
    (h : Inherits l r t) : IsPlain t.document := by
  obtain ⟨content, -, hn⟩ := h
  exact isPlain_of_names (plainCaller_some hr) hn

theorem isPlain_of_reaches {l : Library} {r t : Reference} (hr : IsPlain r.document)
    (h : Relation.ReflTransGen (Inherits l) r t) : IsPlain t.document := by
  induction h with
  | refl => exact hr
  | tail _ hs ih => exact isPlain_of_inherits ih hs

def unvisited (l : Library) (chain : Chain) : List Reference :=
  (places l).filter fun r => r.key ∉ chain

theorem length_unvisited_extend_lt {l : Library} {chain : Chain} {r : Reference}
    (hr : r ∈ places l) (hf : r.key ∉ chain) :
    (unvisited l (chain.extend r.key)).length < (unvisited l chain).length := by
  have heq : unvisited l (chain.extend r.key) =
      (unvisited l chain).filter fun t => t.key ≠ r.key := by
    rw [unvisited, unvisited, List.filter_filter]
    refine List.filter_congr fun t _ => ?_
    simp [Chain.extend, not_or, and_comm]
  rw [heq, List.length_filter_lt_length_iff_exists]
  exact ⟨r, List.mem_filter.2 ⟨hr, by simpa using hf⟩, by simp⟩

/-- To prove something of every chain, prove it of a chain from its extensions by places that are
not under way. -/
theorem chain_induction (l : Library) {motive : Chain → Prop}
    (step : ∀ chain, (∀ r ∈ places l, r.key ∉ chain → motive (chain.extend r.key)) →
      motive chain) (chain : Chain) : motive chain := by
  generalize hn : (unvisited l chain).length = n
  induction n using Nat.strongRecOn generalizing chain with
  | _ n ih =>
    subst hn
    refine step chain fun r hr hf => ?_
    exact ih _ (length_unvisited_extend_lt hr hf) _ rfl

end Inheritance

end SectionCompiler
