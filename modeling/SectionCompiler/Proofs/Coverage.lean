import Mathlib.Order.Bounds.Basic
import SectionCompiler.Proofs.Occurrence
import SectionCompiler.Proofs.Scanning
import SectionCompiler.Template

/-! What the arity of a body says about its placeholders. The indices that a body covers are told
by the placeholders that occur in its texts. The spans that the analysis gathers cover the same
indices, its gap is the least index that is left out, and so each of its answers says just what it
should. -/

namespace SectionCompiler

open Placeholder

namespace Arity

def IsInverted (token : List Char) : Prop :=
  ∃ first last, IsClosedRange first last token ∧ last < first

/-- A placeholder of some kind occurs in a text of a body. -/
def Has (IsToken : List Char → Prop) (body : Section) : Prop :=
  ∃ text ∈ texts body, ∃ token, IsToken token ∧ token <:+: text.toList

def Covered (body : Section) (n : Nat) : Prop :=
  Has (IsSingle n) body ∨
    Has (fun token => ∃ first last, IsClosedRange first last token ∧ first ≤ n ∧ n ≤ last) body

def Gap (body : Section) (n : Nat) : Prop := ¬ Covered body n ∧ ∃ k, Covered body k ∧ n < k

/-- The inverted range that is read first: no earlier text has one, and none begins before it in
its own text. -/
def FirstInverted (body : Section) (token : List Char) : Prop :=
  ∃ earlier text later, texts body = earlier ++ text :: later ∧
    (∀ t ∈ earlier, ∀ token', IsInverted token' → ¬ token' <:+: t.toList) ∧
    ∃ before after, text.toList = before ++ token ++ after ∧ IsInverted token ∧
      ∀ before' token' after', text.toList = before' ++ token' ++ after' → IsInverted token' →
        before.length ≤ before'.length

/-! ### Inverted ranges -/

theorem isInverted_iff {r : Range} (h : r.IsToken) : isInverted r = true ↔ IsInverted r.text := by
  constructor
  · intro hr
    obtain ⟨text, first, last⟩ := r
    cases last with
    | none => exact absurd hr (by simp [isInverted])
    | some last => exact ⟨first, last, h, of_decide_eq_true hr⟩
  · rintro ⟨first, last, hclosed, hlt⟩
    -- a text is the text of one range only
    have hself : rangeAt? r.text = some r := rangeAt?_eq_some_iff.2 ⟨h, List.prefix_rfl⟩
    have hother : rangeAt? r.text = some ⟨r.text, first, some last⟩ :=
      rangeAt?_eq_some_iff.2 ⟨hclosed, List.prefix_rfl⟩
    have heq : r = ⟨r.text, first, some last⟩ := Option.some.inj (hself.symm.trans hother)
    rw [heq]
    exact decide_eq_true hlt

theorem find?_isInverted_eq_none_iff {text : String} :
    (ranges text).find? isInverted = none ↔
      ∀ token, IsInverted token → ¬ token <:+: text.toList := by
  rw [List.find?_eq_none]
  constructor
  · rintro h token ⟨first, last, hclosed, hlt⟩ hin
    exact h ⟨token, first, some last⟩ (mem_ranges_iff.2 ⟨hclosed, hin⟩) (decide_eq_true hlt)
  · intro h r hr hinv
    obtain ⟨htoken, hin⟩ := mem_ranges_iff.1 hr
    exact h r.text ((isInverted_iff htoken).1 hinv) hin

theorem find?_isInverted_eq_some {text : String} {r : Range}
    (h : (ranges text).find? isInverted = some r) :
    ∃ before after, text.toList = before ++ r.text ++ after ∧ IsInverted r.text ∧
      ∀ before' token' after', text.toList = before' ++ token' ++ after' → IsInverted token' →
        before.length ≤ before'.length := by
  obtain ⟨before, after, heq, htoken, hr, hleast⟩ := find?_ranges_eq_some_iff.1 h
  refine ⟨before, after, heq, (isInverted_iff htoken).1 hr, ?_⟩
  rintro before' token' after' heq' ⟨first, last, hclosed, hlt⟩
  exact hleast before' ⟨token', first, some last⟩ after' heq' hclosed (decide_eq_true hlt)

theorem exists_find?_isInverted {text : String} {token before after : List Char}
    (heq : text.toList = before ++ token ++ after) (h : IsInverted token)
    (hleast : ∀ before' token' after', text.toList = before' ++ token' ++ after' →
      IsInverted token' → before.length ≤ before'.length) :
    ∃ r, (ranges text).find? isInverted = some r ∧ r.text = token := by
  obtain ⟨first, last, hclosed, hlt⟩ := h
  refine ⟨⟨token, first, some last⟩, find?_ranges_eq_some_iff.2
    ⟨before, after, heq, hclosed, decide_eq_true hlt, ?_⟩, rfl⟩
  intro before' r' after' heq' htoken' hr'
  exact hleast before' r'.text after' heq' ((isInverted_iff htoken').1 hr')

variable {body : Section}

theorem firstInverted_iff {token : List Char} :
    FirstInverted body token ↔ ∃ r, firstInverted? body = some r ∧ r.text = token := by
  simp only [firstInverted?, List.findSome?_eq_some_iff]
  constructor
  · rintro ⟨earlier, text, later, htexts, hearlier, before, after, heq, hinv, hleast⟩
    obtain ⟨r, hr, hrtext⟩ := exists_find?_isInverted heq hinv hleast
    exact ⟨r, ⟨earlier, text, later, htexts, hr,
      fun t ht => find?_isInverted_eq_none_iff.2 (hearlier t ht)⟩, hrtext⟩
  · rintro ⟨r, ⟨earlier, text, later, htexts, hr, hearlier⟩, rfl⟩
    exact ⟨earlier, text, later, htexts,
      fun t ht => find?_isInverted_eq_none_iff.1 (hearlier t ht), find?_isInverted_eq_some hr⟩

theorem firstInverted?_eq_none_iff : firstInverted? body = none ↔ ¬ Has IsInverted body := by
  simp only [firstInverted?, List.findSome?_eq_none_iff, find?_isInverted_eq_none_iff]
  constructor
  · rintro h ⟨text, htext, token, hinv, hin⟩
    exact h text htext token hinv hin
  · intro h text htext token hinv hin
    exact h ⟨text, htext, token, hinv, hin⟩

/-! ### Covered indices -/

theorem mem_spans_coverageOf_iff {text : String} {s : Span} :
    s ∈ (coverageOf text).spans ↔
      (∃ token, (IsSingle s.first token ∧ s.first = s.last) ∧ token <:+: text.toList) ∨
        ∃ token, IsClosedRange s.first s.last token ∧ token <:+: text.toList := by
  obtain ⟨first, last⟩ := s
  rw [coverageOf, List.mem_append, List.mem_map, List.mem_filterMap]
  apply or_congr
  · constructor
    · rintro ⟨i, hi, hs⟩
      obtain ⟨rfl, rfl⟩ := Span.mk.inj hs
      obtain ⟨token, htoken, hin⟩ := mem_singles_iff.1 hi
      exact ⟨token, ⟨htoken, rfl⟩, hin⟩
    · rintro ⟨token, ⟨htoken, heq⟩, hin⟩
      exact ⟨first, mem_singles_iff.2 ⟨token, htoken, hin⟩, congrArg (Span.mk first) heq⟩
  · constructor
    · rintro ⟨⟨token, first', last'⟩, hr, hs⟩
      obtain ⟨htoken, hin⟩ := mem_ranges_iff.1 hr
      cases last' with
      | none => exact absurd hs (by simp)
      | some last' =>
        obtain ⟨rfl, rfl⟩ := Span.mk.inj (Option.some.inj hs)
        exact ⟨token, htoken, hin⟩
    · rintro ⟨token, htoken, hin⟩
      exact ⟨⟨token, first, some last⟩, mem_ranges_iff.2 ⟨htoken, hin⟩, rfl⟩

/-- The spans of a body cover what its placeholders cover. -/
theorem in_coverage_iff {n : Nat} : In (coverage body).spans n ↔ Covered body n := by
  simp only [In, coverage, List.mem_flatMap, mem_spans_coverageOf_iff]
  constructor
  · rintro ⟨⟨first, last⟩, ⟨text, htext, hs⟩, hfirst, hlast⟩
    rcases hs with ⟨token, ⟨htoken, heq⟩, hin⟩ | ⟨token, htoken, hin⟩
    · obtain rfl : first = n := Nat.le_antisymm hfirst (hlast.trans (Nat.le_of_eq heq.symm))
      exact Or.inl ⟨text, htext, token, htoken, hin⟩
    · exact Or.inr ⟨text, htext, token, ⟨first, last, htoken, hfirst, hlast⟩, hin⟩
  · rintro (⟨text, htext, token, htoken, hin⟩ |
      ⟨text, htext, token, ⟨first, last, htoken, hfirst, hlast⟩, hin⟩)
    · exact ⟨⟨n, n⟩, ⟨text, htext, Or.inl ⟨token, ⟨htoken, rfl⟩, hin⟩⟩, le_rfl, le_rfl⟩
    · exact ⟨⟨first, last⟩, ⟨text, htext, Or.inr ⟨token, htoken, hin⟩⟩, hfirst, hlast⟩

theorem isOpen_coverage_iff :
    (coverage body).isOpen = true ↔ Has (fun token => ∃ first, IsOpenRange first token) body := by
  simp only [coverage, coverageOf, List.any_eq_true, Option.isNone_iff_eq_none]
  constructor
  · rintro ⟨text, htext, ⟨token, first, last⟩, hr, rfl⟩
    obtain ⟨htoken, hin⟩ := mem_ranges_iff.1 hr
    exact ⟨text, htext, token, ⟨first, htoken⟩, hin⟩
  · rintro ⟨text, htext, token, ⟨first, htoken⟩, hin⟩
    exact ⟨text, htext, ⟨token, first, none⟩, mem_ranges_iff.2 ⟨htoken, hin⟩, rfl⟩

theorem isProper (h : ¬ Has IsInverted body) {s : Span} (hs : s ∈ (coverage body).spans) :
    s.IsProper := by
  obtain ⟨text, htext, hs⟩ := List.mem_flatMap.1 hs
  rcases mem_spans_coverageOf_iff.1 hs with
    ⟨token, ⟨⟨digits, hspells, -⟩, heq⟩, -⟩ | ⟨token, htoken, hin⟩
  · exact ⟨heq.le, heq ▸ hspells.lt_bound⟩
  · obtain ⟨digits, digits', -, hspells, -⟩ := id htoken
    refine ⟨?_, hspells.lt_bound⟩
    by_contra hlt
    exact h ⟨text, htext, token, ⟨s.first, s.last, htoken, Nat.lt_of_not_le hlt⟩, hin⟩

theorem covered_last (h : ¬ Has IsInverted body) {s : Span} (hs : s ∈ (coverage body).spans) :
    Covered body s.last :=
  in_coverage_iff.1 ⟨s, hs, (isProper h hs).first_le_last, le_rfl⟩

/-! ### The gap -/

def firstGap (body : Section) : Nat := gapFrom (coverage body).spans 0

theorem not_covered_firstGap (body : Section) : ¬ Covered body (firstGap body) :=
  fun h => (isGapFrom_gapFrom (coverage body).spans 0).not_in (in_coverage_iff.2 h)

theorem covered_of_lt {n : Nat} (h : n < firstGap body) : Covered body n :=
  in_coverage_iff.1 ((isGapFrom_gapFrom (coverage body).spans 0).in_of_lt n (Nat.zero_le n) h)

theorem Gap.firstGap_le {n : Nat} (h : Gap body n) : firstGap body ≤ n := by
  by_contra hlt
  exact h.1 (covered_of_lt (Nat.lt_of_not_le hlt))

theorem Gap.exists_lt_last {n : Nat} (h : Gap body n) :
    ∃ s ∈ (coverage body).spans, firstGap body < s.last := by
  have hle := h.firstGap_le
  obtain ⟨-, k, hk, hlt⟩ := h
  obtain ⟨s, hs, -, hlast⟩ := in_coverage_iff.2 hk
  exact ⟨s, hs, by omega⟩

theorem gap_firstGap (h : ¬ Has IsInverted body) {s : Span} (hs : s ∈ (coverage body).spans)
    (hlt : firstGap body < s.last) : Gap body (firstGap body) :=
  ⟨not_covered_firstGap body, s.last, covered_last h hs, hlt⟩

theorem eq_firstGap_of_isLeast {n : Nat} (h : IsLeast {n | Gap body n} n) : n = firstGap body := by
  obtain ⟨-, k, hk, hlt⟩ := h.1
  have hle := h.1.firstGap_le
  exact Nat.le_antisymm (h.2 ⟨not_covered_firstGap body, k, hk, by omega⟩) hle

/-! ### The greatest index -/

theorem max?_last_eq_some_iff (h : ¬ Has IsInverted body) {last : Nat} :
    ((coverage body).spans.map Span.last).max? = some last ↔
      IsGreatest {n | Covered body n} last := by
  rw [List.max?_eq_some_iff, List.forall_mem_map]
  constructor
  · rintro ⟨hmem, hle⟩
    obtain ⟨s, hs, rfl⟩ := List.mem_map.1 hmem
    refine ⟨covered_last h hs, fun n hn => ?_⟩
    obtain ⟨t, ht, -, hlast⟩ := in_coverage_iff.2 hn
    exact hlast.trans (hle t ht)
  · rintro ⟨hcovered, hle⟩
    obtain ⟨s, hs, -, hlast⟩ := in_coverage_iff.2 hcovered
    refine ⟨List.mem_map.2 ⟨s, hs, ?_⟩, fun t ht => hle (covered_last h ht)⟩
    exact Nat.le_antisymm (hle (covered_last h hs)) hlast

theorem span_of_isGreatest (h : ¬ Has IsInverted body) {last : Nat}
    (hlast : IsGreatest {n | Covered body n} last) :
    span (coverage body).spans = min (last + 1) (2 ^ 64 - 1) := by
  rw [span, (max?_last_eq_some_iff h).2 hlast]
  rfl

theorem spans_eq_nil (h : ¬ Has IsInverted body) (hnone : ∀ n, ¬ Covered body n) :
    (coverage body).spans = [] :=
  List.eq_nil_iff_forall_not_mem.2 fun s hs => hnone s.last (covered_last h hs)

theorem exists_isGreatest (h : ¬ Has IsInverted body) {n : Nat} (hn : Covered body n) :
    ∃ last, IsGreatest {n | Covered body n} last := by
  obtain ⟨s, hs, -⟩ := in_coverage_iff.2 hn
  have hne : ((coverage body).spans.map Span.last).max? ≠ none := fun hnone =>
    List.ne_nil_of_mem (List.mem_map_of_mem hs) (List.max?_eq_none_iff.1 hnone)
  obtain ⟨last, hlast⟩ := Option.ne_none_iff_exists'.1 hne
  exact ⟨last, (max?_last_eq_some_iff h).1 hlast⟩

/-! ### The answers of the analysis -/

/-- The arity of a body by a search for the gap, which needs no sorting. -/
theorem ofBody_eq_search (body : Section) :
    ofBody body =
      match firstInverted? body with
      | some r => .error (.inverted (String.ofList r.text))
      | none =>
        if (coverage body).spans.any fun s => firstGap body < s.last then
          .error (.missing (firstGap body))
        else if (coverage body).isOpen then .ok .unbounded
        else .ok (.finite (span (coverage body).spans)) := by
  rw [ofBody_eq_elim]
  cases hfirst : firstInverted? body with
  | some r => rfl
  | none => exact Coverage.finish_scan fun s => isProper (firstInverted?_eq_none_iff.1 hfirst)

theorem ofBody_eq (h : ¬ Has IsInverted body) :
    ofBody body =
      if (coverage body).spans.any fun s => firstGap body < s.last then
        .error (.missing (firstGap body))
      else if (coverage body).isOpen then .ok .unbounded
      else .ok (.finite (span (coverage body).spans)) := by
  rw [ofBody_eq_search, firstInverted?_eq_none_iff.2 h]

theorem ofBody_of_not_gap (h : ¬ Has IsInverted body) (hgap : ∀ n, ¬ Gap body n) :
    ofBody body =
      if (coverage body).isOpen then .ok .unbounded
      else .ok (.finite (span (coverage body).spans)) := by
  rw [ofBody_eq h, if_neg]
  intro hany
  obtain ⟨s, hs, hlt⟩ := List.any_eq_true.1 hany
  exact hgap _ (gap_firstGap h hs (of_decide_eq_true hlt))

theorem ofBody_of_isLeast_gap (h : ¬ Has IsInverted body) {n : Nat}
    (hn : IsLeast {n | Gap body n} n) : ofBody body = .error (.missing n) := by
  obtain ⟨s, hs, hlt⟩ := hn.1.exists_lt_last
  rw [eq_firstGap_of_isLeast hn, ofBody_eq h, if_pos]
  exact List.any_eq_true.2 ⟨s, hs, decide_eq_true hlt⟩

theorem ofBody_of_firstInverted {token : List Char} (h : FirstInverted body token) :
    ofBody body = .error (.inverted (String.ofList token)) := by
  obtain ⟨r, hr, rfl⟩ := firstInverted_iff.1 h
  rw [ofBody_eq_search, hr]

end Arity

namespace Template

open Arity

/-- What the placeholders of a body say about the template of that body. -/
inductive Judged (name : String) (body : Section) : Except Malformed Template → Prop
  | inverted {token : List Char} :
      FirstInverted body token →
      Judged name body (.error ⟨name, .inverted (String.ofList token)⟩)
  | missing {n : Nat} :
      ¬ Has IsInverted body → IsLeast {n | Gap body n} n →
      Judged name body (.error ⟨name, .missing n⟩)
  | unbounded :
      ¬ Has IsInverted body → (∀ n, ¬ Gap body n) →
      Has (fun token => ∃ first, IsOpenRange first token) body →
      Judged name body (.ok ⟨name, body, .unbounded⟩)
  | finite {last : Nat} :
      ¬ Has IsInverted body → (∀ n, ¬ Gap body n) →
      ¬ Has (fun token => ∃ first, IsOpenRange first token) body →
      IsGreatest {n | Covered body n} last →
      Judged name body (.ok ⟨name, body, .finite (min (last + 1) (2 ^ 64 - 1))⟩)
  | nothing :
      ¬ Has IsInverted body → (∀ n, ¬ Covered body n) →
      ¬ Has (fun token => ∃ first, IsOpenRange first token) body →
      Judged name body (.ok ⟨name, body, .finite 0⟩)

variable {name : String} {body : Section}

theorem ofBody_eq_of_error {defect : Defect} (h : Arity.ofBody body = .error defect) :
    ofBody name body = .error ⟨name, defect⟩ := by
  rw [ofBody, h]

theorem ofBody_eq_of_ok {arity : Arity} (h : Arity.ofBody body = .ok arity) :
    ofBody name body = .ok ⟨name, body, arity⟩ := by
  rw [ofBody, h]

theorem eq_of_judged {answer : Except Malformed Template} (h : Judged name body answer) :
    ofBody name body = answer := by
  cases h with
  | inverted hfirst => exact ofBody_eq_of_error (Arity.ofBody_of_firstInverted hfirst)
  | missing hinv hleast => exact ofBody_eq_of_error (Arity.ofBody_of_isLeast_gap hinv hleast)
  | unbounded hinv hgap hopen =>
    apply ofBody_eq_of_ok
    rw [Arity.ofBody_of_not_gap hinv hgap, if_pos (isOpen_coverage_iff.2 hopen)]
  | finite hinv hgap hopen hlast =>
    apply ofBody_eq_of_ok
    rw [Arity.ofBody_of_not_gap hinv hgap, if_neg (mt isOpen_coverage_iff.1 hopen),
      span_of_isGreatest hinv hlast]
  | nothing hinv hnone hopen =>
    apply ofBody_eq_of_ok
    have hgap : ∀ n, ¬ Gap body n := fun n ⟨_, k, hk, _⟩ => hnone k hk
    rw [Arity.ofBody_of_not_gap hinv hgap, if_neg (mt isOpen_coverage_iff.1 hopen),
      spans_eq_nil hinv hnone]
    rfl

theorem exists_judged (name : String) (body : Section) : ∃ answer, Judged name body answer := by
  by_cases hinv : Has IsInverted body
  · have hne : firstInverted? body ≠ none := fun h => firstInverted?_eq_none_iff.1 h hinv
    obtain ⟨r, hr⟩ := Option.ne_none_iff_exists'.1 hne
    exact ⟨_, .inverted (firstInverted_iff.2 ⟨r, hr, rfl⟩)⟩
  by_cases hgap : ∃ n, Gap body n
  · obtain ⟨n, hn⟩ := hgap
    obtain ⟨s, hs, hlt⟩ := hn.exists_lt_last
    exact ⟨_, .missing hinv ⟨gap_firstGap hinv hs hlt, fun m hm => hm.firstGap_le⟩⟩
  rw [not_exists] at hgap
  by_cases hopen : Has (fun token => ∃ first, IsOpenRange first token) body
  · exact ⟨_, .unbounded hinv hgap hopen⟩
  by_cases hcovered : ∃ n, Covered body n
  · obtain ⟨n, hn⟩ := hcovered
    obtain ⟨last, hlast⟩ := exists_isGreatest hinv hn
    exact ⟨_, .finite hinv hgap hopen hlast⟩
  · exact ⟨_, .nothing hinv (not_exists.1 hcovered) hopen⟩

/-- A template is made of a body, or refused, just as the placeholders of the body say. -/
theorem ofBody_eq_iff_judged (name : String) (body : Section)
    (answer : Except Malformed Template) :
    ofBody name body = answer ↔ Judged name body answer := by
  constructor
  · rintro rfl
    obtain ⟨answer, h⟩ := exists_judged name body
    exact (eq_of_judged h).symm ▸ h
  · exact eq_of_judged

/-- A gap is not reported where a later text holds an inverted range. -/
example : ofBody "Hangar" ⟨[("$\x7b2\x7d", .list ["a", "$\x7b0...1\x7d$\x7b4...3\x7d"])]⟩ =
    .error ⟨"Hangar", .inverted "$\x7b4...3\x7d"⟩ := by
  rw [ofBody, ofBody_eq_search]
  decide +kernel

end Template

end SectionCompiler
