import SectionCompiler.Proofs.Coverage

/-! How far a template reads its arguments. The placeholders of a template with a finite arity stay
below the arity, so its ranges stand for the same arguments, and its singles are filled in with the
same texts, when the arguments from the arity on are left away. -/

namespace SectionCompiler

open Placeholder

namespace Placeholder

/-- The arguments at and past the limit are not put in. -/
theorem fill_take (limit : Nat) (args : List String) (text : String) :
    fill limit (args.take limit) text = fill limit args text := by
  have hpiece : Piece.fill limit (args.take limit) = Piece.fill limit args := by
    funext p
    unfold Piece.fill
    cases p.index? with
    | none => rfl
    | some i =>
      dsimp only
      split
      · next hi => rw [List.getElem?_take_of_lt hi]
      · rfl
  rw [fill, fill, hpiece]

/-- A closed range that ends below `n` stands for the same arguments when those from `n` on are left
away. -/
theorem Range.slice?_take {r : Range} {last n : Nat} (hr : r.last = some last) (hlast : last < n)
    {args : List String} (hlen : n ≤ args.length) : r.slice? (args.take n) = r.slice? args := by
  have hbounds : ∀ count, n ≤ count →
      r.bounded? count = if r.first ≤ last then some (r.first, last) else none := by
    intro count hcount
    have hmin : min last (count - 1) = last := by omega
    have hpos : count ≠ 0 := by omega
    rw [bounded?, if_neg hpos, hr]
    simp only [hmin]
  have hlen' : n ≤ (args.take n).length := by simp [hlen]
  rw [slice?, slice?, hbounds _ hlen', hbounds _ hlen]
  split
  · have htake : min (last + 1 - r.first) (n - r.first) = last + 1 - r.first := by omega
    simp only [Option.map_some, List.drop_take, List.take_take, htake]
  · rfl

end Placeholder

namespace Template

open Arity

variable {name : String} {body : Section} {n : Nat}

/-- The ranges of a body are closed and none of them is inverted, and its covered indices lie below
`n`, unless `n` is the greatest number of arguments. -/
structure Bounded (body : Section) (n : Nat) : Prop where
  not_inverted : ¬ Has IsInverted body
  not_open : ¬ Has (fun token => ∃ first, IsOpenRange first token) body
  covered_lt : ∀ i, Covered body i → i < n ∨ 2 ^ 64 - 1 ≤ n

theorem bounded_of_ofBody (h : ofBody name body = .ok ⟨name, body, .finite n⟩) :
    Bounded body n := by
  obtain ⟨answer, hjudged⟩ := exists_judged name body
  rw [eq_of_judged hjudged] at h
  subst h
  cases hjudged with
  | finite hinv hgap hopen hlast =>
    refine ⟨hinv, hopen, fun i hi => ?_⟩
    have := hlast.2 hi
    omega
  | nothing hinv hnone hopen => exact ⟨hinv, hopen, fun i hi => absurd hi (hnone i)⟩

theorem eq_of_ofBody {t : Template} {arity : Arity} (h : ofBody name body = .ok t)
    (ht : t.arity = arity) : t = ⟨name, body, arity⟩ := by
  subst ht
  unfold ofBody at h
  split at h
  · obtain rfl := Except.ok.inj h
    rfl
  · exact absurd h (by simp)

theorem covered_of_range {text : String} {r : Range} (htext : text ∈ texts body)
    (hr : r ∈ ranges text) {last i : Nat} (hlast : r.last = some last) (hfirst : r.first ≤ i)
    (hi : i ≤ last) : Covered body i := by
  obtain ⟨htoken, hin⟩ := mem_ranges_iff.1 hr
  obtain ⟨token, first, _⟩ := r
  obtain rfl : _ = some last := hlast
  exact Or.inr ⟨text, htext, token, ⟨first, last, htoken, hfirst, hi⟩, hin⟩

theorem Bounded.exists_last (h : Bounded body n) {text : String} {r : Range}
    (htext : text ∈ texts body) (hr : r ∈ ranges text) :
    ∃ last, r.last = some last ∧ r.first ≤ last := by
  obtain ⟨htoken, hin⟩ := mem_ranges_iff.1 hr
  obtain ⟨token, first, last⟩ := r
  cases last with
  | none => exact absurd ⟨text, htext, token, ⟨first, htoken⟩, hin⟩ h.not_open
  | some last =>
    refine ⟨last, rfl, ?_⟩
    by_contra hlt
    exact h.not_inverted ⟨text, htext, token, ⟨first, last, htoken, Nat.lt_of_not_le hlt⟩, hin⟩

/-- A text of the body is spread alike over all arguments and over those below the arity. -/
theorem Bounded.spread?_take (h : Bounded body n) {args : List String} (hlen : n ≤ args.length)
    (hn : n < 2 ^ 64 - 1) {text : String} (htext : text ∈ texts body) :
    spread? text (args.take n) = spread? text args := by
  unfold spread?
  cases hr : firstRange? text with
  | none => rfl
  | some r =>
    have hmem : r ∈ ranges text := List.mem_of_mem_head? hr
    obtain ⟨last, hlast, hle⟩ := h.exists_last htext hmem
    have hlt : last < n := by
      have := h.covered_lt last (covered_of_range htext hmem hlast hle le_rfl)
      omega
    simp only [Option.bind_eq_bind, Option.bind_some, r.slice?_take hlast hlt hlen]

theorem Bounded.entriesFor_take (h : Bounded body n) {args : List String} (hlen : n ≤ args.length)
    (hn : n < 2 ^ 64 - 1) :
    entriesFor ⟨name, body, .finite n⟩ (args.take n) = entriesFor ⟨name, body, .finite n⟩ args := by
  refine List.flatMap_congr fun e he => ?_
  have htext : ∀ text ∈ e.1 :: e.2.strings, text ∈ texts body := fun text hm =>
    List.mem_flatMap.2 ⟨e, he, hm⟩
  have hkey : spreadKey e.1 (args.take n) = spreadKey e.1 args := by
    rw [spreadKey, spreadKey, h.spread?_take hlen hn (htext _ List.mem_cons_self)]
  have hvalue : ∀ text ∈ e.2.strings, spreadValue text (args.take n) = spreadValue text args := by
    intro text hm
    rw [spreadValue, spreadValue, h.spread?_take hlen hn (htext _ (List.mem_cons_of_mem _ hm))]
  have hvalues : (e.2.map fun text => fill n args (spreadValue text (args.take n))) =
      e.2.map fun text => fill n args (spreadValue text args) :=
    Value.map_congr fun text hm => congrArg (fill n args) (hvalue text hm)
  simp only [expandEntry, effective, hkey, fill_take, hvalues]

/-- A template with a finite arity makes of its arguments what it makes of those below the arity.
No later one matters, in whatever way the arguments below the arity are written. -/
theorem expand_take {t : Template} (h : ofBody name body = .ok t) (ht : t.arity = .finite n)
    {args : List String} (hargs : args.length < 2 ^ 64) :
    t.expand args = t.expand (args.take n) := by
  obtain rfl := eq_of_ofBody h ht
  by_cases hlen : args.length ≤ n
  · rw [List.take_of_length_le hlen]
  · -- an arity below the number of the arguments is not the greatest one
    have hn : n < 2 ^ 64 - 1 := by omega
    rw [expand, expand, (bounded_of_ofBody h).entriesFor_take (Nat.le_of_not_le hlen) hn]

def turret : Template where
  name := "turret"
  body := ⟨[("Gun$\x7b0...2\x7d", .list ["$\x7b0...2\x7d", "$\x7b1\x7d of $\x7b2\x7d"])]⟩
  arity := .finite 3

theorem expand_take_turret :
    ofBody "turret" turret.body = .ok turret ∧ turret.arity = .finite 3 ∧
      ["$\x7b3\x7d", "$\x7b0...3\x7d", "c", "spare"].length < 2 ^ 64 ∧
      turret.expand ["$\x7b3\x7d", "$\x7b0...3\x7d", "c", "spare"] =
        turret.expand ["$\x7b3\x7d", "$\x7b0...3\x7d", "c"] := by
  have hbody : ofBody "turret" turret.body = .ok turret := by
    rw [ofBody, ofBody_eq_search]
    decide +kernel
  exact ⟨hbody, rfl, by decide, expand_take hbody rfl (by decide)⟩

end Template

end SectionCompiler
