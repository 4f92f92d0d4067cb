import Mathlib.Data.List.Chain
import SectionCompiler.Proofs.Inheritance

/-! Chains of references on which everything is new. Resolution meets the references of a section
in order, so a member of a chain is new when it is not known at first and nothing that stands
before the chain in a section on it inherits from it. -/

namespace SectionCompiler

open Relation

namespace Inheritance

/-- The references that some texts in the document `caller` stand for, in order. -/
def readings (caller : Option String) (raws : List String) : List Reference :=
  raws.filterMap fun raw => (Reference.parse raw caller).toOption

/-- The references that the section of a reference names, in order. -/
def named (l : Library) (r : Reference) : List Reference :=
  match target? l r with
  | none => []
  | some content => readings (some r.document) content.references

theorem mem_readings_iff {caller : Option String} {raws : List String} {t : Reference} :
    t ∈ readings caller raws ↔ ∃ raw ∈ raws, Reference.parse raw caller = .ok t := by
  rw [readings, List.mem_filterMap]
  refine exists_congr fun raw => and_congr_right fun _ => ?_
  cases Reference.parse raw caller <;> simp [Except.toOption]

theorem readings_cons {caller : Option String} {raw : String} {t : Reference}
    (h : Reference.parse raw caller = .ok t) (rest : List String) :
    readings caller (raw :: rest) = t :: readings caller rest :=
  List.filterMap_cons_some (by rw [h]; rfl)

theorem mem_named_iff {l : Library} {r t : Reference} : t ∈ named l r ↔ Inherits l r t := by
  unfold named Inherits
  cases target? l r with
  | none => simp
  | some content => simp [mem_readings_iff, Names]

/-- Inheritance leads from one of some references to `t`, in no steps or more. -/
def ReachedFrom (l : Library) (rs : List Reference) (t : Reference) : Prop :=
  ∃ r ∈ rs, ReflTransGen (Inherits l) r t

theorem reachedFrom_cons {l : Library} {r t : Reference} {rs : List Reference} :
    ReachedFrom l (r :: rs) t ↔ ReflTransGen (Inherits l) r t ∨ ReachedFrom l rs t := by
  simp [ReachedFrom]

theorem reachedFrom_singleton {l : Library} {r t : Reference} :
    ReachedFrom l [r] t ↔ ReflTransGen (Inherits l) r t := by
  simp [ReachedFrom]

theorem reaches_iff {l : Library} {r t : Reference} :
    ReflTransGen (Inherits l) r t ↔ t = r ∨ ReachedFrom l (named l r) t := by
  rw [ReflTransGen.cases_head_iff, eq_comm]
  simp only [ReachedFrom, mem_named_iff]

/-- A library is acyclic when each place stands higher than those it inherits from. -/
theorem not_transGen_self_of_rank {l : Library} {rank : Reference → Nat}
    (h : ∀ r ∈ places l, ∀ t ∈ named l r, rank t < rank r) (r : Reference) :
    ¬ TransGen (Inherits l) r r := by
  have hstep {r t : Reference} (hs : Inherits l r t) : rank t < rank r := by
    obtain ⟨content, hcontent, -⟩ := id hs
    exact h r (mem_places_iff.2 ⟨content, hcontent⟩) t (mem_named_iff.2 hs)
  have hpath {r t : Reference} (hreach : TransGen (Inherits l) r t) : rank t < rank r := by
    induction hreach with
    | single hs => exact hstep hs
    | tail _ hs ih => exact (hstep hs).trans ih
  exact fun hcycle => absurd (hpath hcycle) (Nat.lt_irrefl _)

/-- A chain of references, each named in the section of the one before it, on which none is known
when it is met. Some are known at first; when a member of the chain is met, the references that
stand before it in the section are known too, with all that they inherit from. -/
inductive Unexplored (l : Library) : (Reference → Prop) → List Reference → Prop where
  | last {known : Reference → Prop} {r : Reference} : ¬ known r → Unexplored l known [r]
  | step {known : Reference → Prop} {r t : Reference} {rest before after : List Reference} :
      ¬ known r → named l r = before ++ t :: after →
      Unexplored l (fun u => known u ∨ ReachedFrom l before u) (t :: rest) →
      Unexplored l known (r :: t :: rest)

/-- A chain with more than `n` members begins at `r` on which nothing is known. -/
def Deep (l : Library) (known : Reference → Prop) (r : Reference) (n : Nat) : Prop :=
  ∃ rest, Unexplored l known (r :: rest) ∧ n < (r :: rest).length

variable {l : Library} {known : Reference → Prop} {r : Reference}

theorem Unexplored.not_known {rest : List Reference} (h : Unexplored l known (r :: rest)) :
    ¬ known r := by
  cases h with
  | last hr => exact hr
  | step hr _ _ => exact hr

/-- Each member of an unexplored chain inherits from the next. -/
theorem Unexplored.isChain {chain : List Reference} (h : Unexplored l known chain) :
    chain.IsChain (Inherits l) := by
  induction h with
  | last _ => exact .singleton _
  | step _ hnamed _ ih =>
    refine .cons_cons (mem_named_iff.1 ?_) ih
    rw [hnamed]
    exact List.mem_append_right _ List.mem_cons_self

theorem deep_zero_iff : Deep l known r 0 ↔ ¬ known r := by
  constructor
  · rintro ⟨rest, h, -⟩
    exact h.not_known
  · intro h
    exact ⟨[], .last h, Nat.one_pos⟩

theorem deep_succ_iff {n : Nat} :
    Deep l known r (n + 1) ↔ ¬ known r ∧ ∃ before t after, named l r = before ++ t :: after ∧
      Deep l (fun u => known u ∨ ReachedFrom l before u) t n := by
  constructor
  · rintro ⟨rest, h, hlen⟩
    cases h with
    | last _ => simp at hlen
    | step hr hnamed hrest =>
      exact ⟨hr, _, _, _, hnamed, _, hrest, Nat.lt_of_succ_lt_succ hlen⟩
  · rintro ⟨hr, before, t, after, hnamed, rest, h, hlen⟩
    exact ⟨t :: rest, .step hr hnamed h, Nat.succ_lt_succ hlen⟩

end Inheritance

end SectionCompiler
