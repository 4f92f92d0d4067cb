import Mathlib.Data.Nat.SuccPred
import SectionCompiler.Template.Arity

/-! The sweep over sorted spans against a search for the gap. A sweep meets the spans in the order
in which they begin and never counts past the greatest index. The search takes the spans as they
come and counts without a bound. The sweep stops exactly where a span reaches past the gap, and
then at the gap. -/

namespace SectionCompiler.Arity

open Placeholder (indexBound)

/-! ### The search for a gap -/

def Span.covers (s : Span) (n : Nat) : Bool := s.first ≤ n && n ≤ s.last

/-- The spans that reach past the end of a span. -/
def Span.reachingPast (s : Span) (spans : List Span) : List Span :=
  spans.filter fun t => s.last < t.last

theorem length_reachingPast_lt {spans : List Span} {s : Span} (h : s ∈ spans) :
    (s.reachingPast spans).length < spans.length :=
  List.length_filter_lt_length_iff_exists.2 ⟨s, h, by simp⟩

/-- The least index from `n` on that no span covers. -/
def gapFrom (spans : List Span) (n : Nat) : Nat :=
  match _h : spans.find? (·.covers n) with
  | some s => gapFrom (s.reachingPast spans) (s.last + 1)
  | none => n
termination_by spans.length
decreasing_by exact length_reachingPast_lt (List.mem_of_find?_eq_some _h)

def In (spans : List Span) (n : Nat) : Prop := ∃ s ∈ spans, s.first ≤ n ∧ n ≤ s.last

theorem Span.covers_iff {s : Span} {n : Nat} : s.covers n = true ↔ s.first ≤ n ∧ n ≤ s.last := by
  simp [Span.covers]

/-- From `n` on, the gap is the first index in none of the spans. -/
structure IsGapFrom (spans : List Span) (n gap : Nat) : Prop where
  le : n ≤ gap
  not_in : ¬ In spans gap
  in_of_lt : ∀ m, n ≤ m → m < gap → In spans m

theorem IsGapFrom.unique {spans : List Span} {n gap gap' : Nat} (h : IsGapFrom spans n gap)
    (h' : IsGapFrom spans n gap') : gap = gap' :=
  Nat.le_antisymm (Nat.le_of_not_lt fun hlt => h'.not_in (h.in_of_lt gap' h'.le hlt))
    (Nat.le_of_not_lt fun hlt => h.not_in (h'.in_of_lt gap h.le hlt))

theorem In.of_reachingPast {s : Span} {spans : List Span} {m : Nat}
    (h : In (s.reachingPast spans) m) : In spans m := by
  obtain ⟨t, ht, hcovers⟩ := h
  exact ⟨t, (List.mem_filter.1 ht).1, hcovers⟩

/-- Past a span, only the spans that reach past it count. -/
theorem In.reachingPast {s : Span} {spans : List Span} {m : Nat} (h : In spans m)
    (hm : s.last < m) : In (s.reachingPast spans) m := by
  obtain ⟨t, ht, hfirst, hlast⟩ := h
  exact ⟨t, List.mem_filter.2 ⟨ht, decide_eq_true (hm.trans_le hlast)⟩, hfirst, hlast⟩

theorem gapFrom_of_some {spans : List Span} {n : Nat} {s : Span}
    (h : spans.find? (·.covers n) = some s) :
    gapFrom spans n = gapFrom (s.reachingPast spans) (s.last + 1) := by
  rw [gapFrom]
  split
  · next h' =>
    obtain rfl := Option.some.inj (h.symm.trans h')
    rfl
  · next h' => exact absurd h (by simp [h'])

theorem gapFrom_of_none {spans : List Span} {n : Nat} (h : spans.find? (·.covers n) = none) :
    gapFrom spans n = n := by
  rw [gapFrom]
  split
  · next h' => exact absurd h (by simp [h'])
  · rfl

theorem isGapFrom_gapFrom (spans : List Span) (n : Nat) :
    IsGapFrom spans n (gapFrom spans n) := by
  induction spans, n using gapFrom.induct with
  | case1 spans n s hs ih =>
    have hcovers : s.first ≤ n ∧ n ≤ s.last := by
      have := List.find?_some hs
      exact Span.covers_iff.1 this
    have hmem : s ∈ spans := List.mem_of_find?_eq_some hs
    rw [gapFrom_of_some hs]
    have hpast : s.last < gapFrom (s.reachingPast spans) (s.last + 1) := ih.le
    refine ⟨by omega, fun h => ih.not_in (h.reachingPast hpast), fun m hn hm => ?_⟩
    by_cases hlast : m ≤ s.last
    · exact ⟨s, hmem, by omega, hlast⟩
    · exact (ih.in_of_lt m (by omega) hm).of_reachingPast
  | case2 spans n hs =>
    rw [gapFrom_of_none hs]
    refine ⟨le_rfl, ?_, fun m hn hm => absurd hm (Nat.not_lt.2 hn)⟩
    rintro ⟨s, hmem, hcovers⟩
    exact List.find?_eq_none.1 hs s hmem (Span.covers_iff.2 hcovers)

/-! ### The order of spans -/

theorem Span.le_iff {s t : Span} :
    s.le t = true ↔ s.first < t.first ∨ s.first = t.first ∧ s.last ≤ t.last := by
  simp [Span.le]

theorem Span.first_le_first {s t : Span} (h : s.le t = true) : s.first ≤ t.first := by
  rcases Span.le_iff.1 h with hlt | ⟨heq, -⟩
  · exact hlt.le
  · exact heq.le

theorem Span.le_trans (s t u : Span) (h : s.le t = true) (h' : t.le u = true) :
    s.le u = true := by
  rw [Span.le_iff] at h h' ⊢
  omega

theorem Span.le_total (s t : Span) : (s.le t || t.le s) = true := by
  rw [Bool.or_eq_true, Span.le_iff, Span.le_iff]
  omega

theorem in_mergeSort_iff {spans : List Span} {n : Nat} :
    In (spans.mergeSort Span.le) n ↔ In spans n := by
  simp only [In, List.mem_mergeSort]

/-! ### The sweep -/

/-- The span does not end before it begins, and it ends with an index. -/
structure Span.IsProper (s : Span) : Prop where
  first_le_last : s.first ≤ s.last
  last_lt : s.last < indexBound

/-- How far a sweep over spans has come: all indices below `reached` are in the spans, and no span
reaches farther. The greatest index may be reached and be in a span all the same. -/
structure Swept (spans : List Span) (reached : Nat) : Prop where
  in_of_lt : ∀ m < reached, In spans m
  last_lt : ∀ s ∈ spans, s.last < reached ∨ reached + 1 = indexBound
  lt_bound : reached < indexBound

theorem swept_nil : Swept [] 0 where
  in_of_lt _ hm := absurd hm (Nat.not_lt_zero _)
  last_lt _ hs := absurd hs List.not_mem_nil
  lt_bound := by decide

theorem next_cases {n : Nat} (h : n < indexBound) :
    next n = n + 1 ∧ n + 1 < indexBound ∨ next n = n ∧ n + 1 = indexBound := by
  unfold next
  omega

section

variable {before after spans : List Span} {reached : Nat} {s : Span}

theorem In.append_right {n : Nat} (h : In before n) : In (before ++ after) n := by
  obtain ⟨t, ht, hcovers⟩ := h
  exact ⟨t, List.mem_append_left _ ht, hcovers⟩

/-- A span that begins where the sweep has come, or earlier, is swept over. -/
theorem Swept.concat (h : Swept spans reached) (hs : s.last < indexBound)
    (hfirst : s.first ≤ reached) : Swept (spans ++ [s]) (max reached (next s.last)) := by
  have hnext := next_cases hs
  have hbound := h.lt_bound
  refine ⟨fun m hm => ?_, fun t ht => ?_, by omega⟩
  · by_cases hlt : m < reached
    · exact (h.in_of_lt m hlt).append_right
    · exact ⟨s, List.mem_append_right _ List.mem_cons_self, by omega, by omega⟩
  · rcases List.mem_append.1 ht with ht | ht
    · have hlast := h.last_lt t ht
      omega
    · obtain rfl := List.mem_singleton.1 ht
      omega

/-- A span that begins later leaves a gap, and no later span can fill it. -/
theorem Swept.isGapFrom (h : Swept before reached) (hs : s.IsProper)
    (hsorted : ∀ t ∈ after, s.first ≤ t.first) (hlt : reached < s.first) :
    IsGapFrom (before ++ s :: after) 0 reached := by
  refine ⟨Nat.zero_le _, ?_, fun m _ hm => (h.in_of_lt m hm).append_right⟩
  rintro ⟨t, ht, hfirst, hlast⟩
  rcases List.mem_append.1 ht with ht | ht
  · have hreached := h.last_lt t ht
    have hle := hs.first_le_last
    have hbound := hs.last_lt
    omega
  · rcases List.mem_cons.1 ht with rfl | ht
    · omega
    · have hle := hsorted t ht
      omega

theorem Swept.run (h : Swept before reached) (hbound : ∀ s ∈ after, s.last < indexBound)
    {reached' : Nat} (hrun : after.foldlM sweep reached = .ok reached') :
    Swept (before ++ after) reached' := by
  induction after generalizing before reached with
  | nil =>
    obtain rfl := Except.ok.inj hrun
    rwa [List.append_nil]
  | cons s rest ih =>
    obtain ⟨hs, hrest⟩ := List.forall_mem_cons.1 hbound
    rw [List.foldlM_cons, sweep] at hrun
    split at hrun
    · cases hrun
    · next hfirst =>
      have hstep := h.concat hs (Nat.le_of_not_lt hfirst)
      rw [← List.singleton_append, ← List.append_assoc]
      exact ih hstep hrest hrun

theorem Swept.stop (h : Swept before reached) (hproper : ∀ s ∈ after, s.IsProper)
    (hsorted : after.Pairwise fun s t => s.first ≤ t.first) {defect : Defect}
    (hrun : after.foldlM sweep reached = .error defect) :
    ∃ gap, defect = .missing gap ∧ IsGapFrom (before ++ after) 0 gap ∧
      ∃ s ∈ after, gap < s.last := by
  induction after generalizing before reached with
  | nil => cases hrun
  | cons s rest ih =>
    obtain ⟨hs, hrest⟩ := List.forall_mem_cons.1 hproper
    obtain ⟨hfirsts, hpairs⟩ := List.pairwise_cons.1 hsorted
    rw [List.foldlM_cons, sweep] at hrun
    split at hrun
    · next hlt =>
      obtain rfl := Except.error.inj hrun
      exact ⟨reached, rfl, h.isGapFrom hs hfirsts hlt, s, List.mem_cons_self,
        hlt.trans_le hs.first_le_last⟩
    · next hfirst =>
      have hstep := h.concat hs.last_lt (Nat.le_of_not_lt hfirst)
      obtain ⟨gap, hdefect, hgap, t, ht, hlt⟩ := ih hstep hrest hpairs hrun
      rw [List.append_assoc, List.singleton_append] at hgap
      exact ⟨gap, hdefect, hgap, t, List.mem_cons_of_mem s ht, hlt⟩

theorem Swept.not_lt_last (h : Swept spans reached) {gap : Nat} (hgap : ¬ In spans gap)
    (hmem : s ∈ spans) (hs : s.last < indexBound) : ¬ gap < s.last := by
  intro hlt
  have hlast := h.last_lt s hmem
  exact hgap (h.in_of_lt gap (by omega))

end

/-- The sweep over the sorted spans and the search in the spans come to the same end. -/
theorem foldlM_sweep_eq {spans : List Span} (h : ∀ s ∈ spans, s.IsProper) :
    ∃ reached, (spans.mergeSort Span.le).foldlM sweep 0 =
      if spans.any fun s => gapFrom spans 0 < s.last then .error (.missing (gapFrom spans 0))
      else .ok reached := by
  have hsearch := isGapFrom_gapFrom spans 0
  have hproper : ∀ s ∈ spans.mergeSort Span.le, s.IsProper := fun s hs =>
    h s (List.mem_mergeSort.1 hs)
  cases hrun : (spans.mergeSort Span.le).foldlM sweep 0 with
  | error defect =>
    have hsorted := (List.pairwise_mergeSort Span.le_trans Span.le_total spans).imp
      Span.first_le_first
    obtain ⟨gap, rfl, hgap, s, hs, hlt⟩ := swept_nil.stop hproper hsorted hrun
    have hunsorted : IsGapFrom spans 0 gap :=
      ⟨hgap.le, mt in_mergeSort_iff.2 hgap.not_in,
        fun m hm hlt => in_mergeSort_iff.1 (hgap.in_of_lt m hm hlt)⟩
    obtain rfl := hunsorted.unique hsearch
    refine ⟨0, (if_pos ?_).symm⟩
    exact List.any_eq_true.2 ⟨s, List.mem_mergeSort.1 hs, decide_eq_true hlt⟩
  | ok reached =>
    have hswept := swept_nil.run (fun s hs => (hproper s hs).last_lt) hrun
    refine ⟨reached, (if_neg fun hany => ?_).symm⟩
    obtain ⟨s, hs, hlt⟩ := List.any_eq_true.1 hany
    exact hswept.not_lt_last (mt in_mergeSort_iff.1 hsearch.not_in) (List.mem_mergeSort.2 hs)
      (h s hs).last_lt (of_decide_eq_true hlt)

end SectionCompiler.Arity
