import Mathlib.Data.List.Infix
import SectionCompiler.Proofs.Filling

/-! Where the placeholders of a text stand. A placeholder begins at a dollar sign and holds no
second one. So reading a text left to right, and going on after each placeholder, finds the same
placeholders in the same order as looking for one at every place of the text. -/

namespace SectionCompiler.Placeholder

/-- A run of digits that spells an index below the bound. -/
structure Spells (digits : List Char) (i : Nat) : Prop where
  ne_nil : digits ≠ []
  isDigit : ∀ d ∈ digits, d.isDigit
  number_eq : number digits = i
  lt_bound : i < indexBound

theorem index?_eq_some_iff {digits : List Char} {i : Nat} (h : ∀ d ∈ digits, d.isDigit) :
    index? digits = some i ↔ Spells digits i := by
  unfold index?
  constructor
  · intro hi
    split at hi
    · next hspelt =>
      obtain rfl := Option.some.inj hi
      exact ⟨hspelt.1, h, rfl, hspelt.2⟩
    · exact absurd hi (by simp)
  · rintro ⟨hne, -, rfl, hlt⟩
    exact if_pos ⟨hne, hlt⟩

def IsSingle (i : Nat) (token : List Char) : Prop :=
  ∃ digits, Spells digits i ∧ token = '$' :: '\x7b' :: (digits ++ ['}'])

/-- The text of a range without an end. -/
def IsOpenRange (first : Nat) (token : List Char) : Prop :=
  ∃ digits, Spells digits first ∧ token = rangeText digits []

def IsClosedRange (first last : Nat) (token : List Char) : Prop :=
  ∃ digits digits', Spells digits first ∧ Spells digits' last ∧ token = rangeText digits digits'

/-- A range that is written as its own text says. -/
def Range.IsToken (r : Range) : Prop :=
  match r.last with
  | none => IsOpenRange r.first r.text
  | some last => IsClosedRange r.first last r.text

/-! ### At the head of a text -/

theorem range?_eq_some_iff {cs digits digits' after : List Char} :
    range? cs = some ((digits, digits'), after) ↔
      (digits ≠ [] ∧ ∀ d ∈ digits, d.isDigit) ∧ (∀ d ∈ digits', d.isDigit) ∧
        cs = rangeText digits digits' ++ after := by
  rw [← DigitClass.range?_ten]
  exact DigitClass.range?_eq_some_iff

def singleAt? (cs : List Char) : Option Nat := (single? cs).bind fun found => index? found.1

def rangeAt? (cs : List Char) : Option Range := (range? cs).bind fun found => rangeOf? found.1

theorem singleAt?_eq_some_iff {cs : List Char} {i : Nat} :
    singleAt? cs = some i ↔ ∃ token, IsSingle i token ∧ token <+: cs := by
  rw [singleAt?, Option.bind_eq_some_iff]
  constructor
  · rintro ⟨⟨digits, after⟩, hfound, hi⟩
    obtain ⟨⟨-, hdigits⟩, rfl⟩ := single?_eq_some_iff.1 hfound
    exact ⟨_, ⟨digits, (index?_eq_some_iff hdigits).1 hi, rfl⟩, List.prefix_append _ _⟩
  · rintro ⟨token, ⟨digits, hspells, rfl⟩, after, rfl⟩
    refine ⟨(digits, after), single?_eq_some_iff.2 ⟨⟨hspells.ne_nil, hspells.isDigit⟩, rfl⟩, ?_⟩
    exact (index?_eq_some_iff hspells.isDigit).2 hspells

theorem rangeOf?_nil (digits : List Char) :
    rangeOf? (digits, []) =
      (index? digits).map fun first => ⟨rangeText digits [], first, none⟩ := by
  cases hi : index? digits <;> simp [rangeOf?, hi, rangeText]

theorem rangeOf?_of_ne_nil {digits' : List Char} (h : digits' ≠ []) (digits : List Char) :
    rangeOf? (digits, digits') = (index? digits).bind fun first =>
      (index? digits').map fun last => ⟨rangeText digits digits', first, some last⟩ := by
  cases hi : index? digits with
  | none => simp [rangeOf?, hi]
  | some first => cases hi' : index? digits' <;> simp [rangeOf?, hi, hi', h, rangeText]

theorem rangeOf?_eq_some_iff {digits digits' : List Char} {r : Range}
    (h : ∀ d ∈ digits, d.isDigit) (h' : ∀ d ∈ digits', d.isDigit) :
    rangeOf? (digits, digits') = some r ↔
      (∃ first, Spells digits first ∧ digits' = [] ∧ r = ⟨rangeText digits [], first, none⟩) ∨
        ∃ first last, Spells digits first ∧ Spells digits' last ∧
          r = ⟨rangeText digits digits', first, some last⟩ := by
  by_cases hopen : digits' = []
  · subst hopen
    have hnot : ∀ last, ¬ Spells [] last := fun _ hlast => hlast.ne_nil rfl
    simp [rangeOf?_nil, index?_eq_some_iff h, hnot, @eq_comm _ r]
  · simp [rangeOf?_of_ne_nil hopen, Option.bind_eq_some_iff, index?_eq_some_iff h,
      index?_eq_some_iff h', hopen, @eq_comm _ r]

theorem rangeAt?_eq_some_iff {cs : List Char} {r : Range} :
    rangeAt? cs = some r ↔ r.IsToken ∧ r.text <+: cs := by
  rw [rangeAt?, Option.bind_eq_some_iff]
  constructor
  · rintro ⟨⟨⟨digits, digits'⟩, after⟩, hfound, hr⟩
    obtain ⟨⟨-, hdigits⟩, hdigits', rfl⟩ := range?_eq_some_iff.1 hfound
    rcases (rangeOf?_eq_some_iff hdigits hdigits').1 hr with
      ⟨first, hfirst, rfl, rfl⟩ | ⟨first, last, hfirst, hlast, rfl⟩
    · exact ⟨⟨digits, hfirst, rfl⟩, List.prefix_append _ _⟩
    · exact ⟨⟨digits, digits', hfirst, hlast, rfl⟩, List.prefix_append _ _⟩
  · rintro ⟨htoken, after, rfl⟩
    obtain ⟨text, first, last⟩ := r
    cases last with
    | none =>
      obtain ⟨digits, hfirst, rfl⟩ := htoken
      have hnone : ∀ d ∈ ([] : List Char), d.isDigit := fun _ hd => absurd hd List.not_mem_nil
      refine ⟨((digits, []), after),
        range?_eq_some_iff.2 ⟨⟨hfirst.ne_nil, hfirst.isDigit⟩, hnone, rfl⟩, ?_⟩
      exact (rangeOf?_eq_some_iff hfirst.isDigit hnone).2 (Or.inl ⟨first, hfirst, rfl, rfl⟩)
    | some last =>
      obtain ⟨digits, digits', hfirst, hlast, rfl⟩ := htoken
      refine ⟨((digits, digits'), after),
        range?_eq_some_iff.2 ⟨⟨hfirst.ne_nil, hfirst.isDigit⟩, hlast.isDigit, rfl⟩, ?_⟩
      exact (rangeOf?_eq_some_iff hfirst.isDigit hlast.isDigit).2
        (Or.inr ⟨first, last, hfirst, hlast, rfl⟩)

/-! ### At every place of a text -/

section Places

variable {α : Type} {f : List Char → Option α}

/-- What is found only at dollar signs is not found within a text that has none. -/
theorem filterMap_tails_append (hf : ∀ c rest, c ≠ '$' → f (c :: rest) = none)
    {xs : List Char} (h : '$' ∉ xs) (ys : List Char) :
    (xs ++ ys).tails.filterMap f = ys.tails.filterMap f := by
  induction xs with
  | nil => rfl
  | cons c rest ih =>
    obtain ⟨hc, hrest⟩ := List.ne_and_not_mem_of_not_mem_cons h
    rw [List.cons_append, List.tails_cons, List.filterMap_cons, hf c _ (Ne.symm hc), ih hrest]

/-- A scan that takes what it finds at the head of a text, and goes on behind a piece without
dollar signs, finds what can be found at any place of the text. -/
theorem scan_eq_filterMap_tails (scan : List Char → List α)
    (hf : ∀ c rest, c ≠ '$' → f (c :: rest) = none) (hnil : scan [] = []) (hfnil : f [] = none)
    (hstep : ∀ c rest, ∃ plain after, rest = plain ++ after ∧ '$' ∉ plain ∧
      scan (c :: rest) = (f (c :: rest)).toList ++ scan after) (cs : List Char) :
    scan cs = cs.tails.filterMap f := by
  induction hn : cs.length using Nat.strongRecOn generalizing cs with
  | _ n ih =>
    subst hn
    cases cs with
    | nil => simp [hnil, hfnil]
    | cons c rest =>
      obtain ⟨plain, after, rfl, hplain, hscan⟩ := hstep c rest
      have hlen : after.length < (c :: (plain ++ after)).length := by
        rw [List.length_cons, List.length_append]
        omega
      rw [hscan, List.tails_cons, List.filterMap_cons, filterMap_tails_append hf hplain,
        ih _ hlen after rfl]
      cases f (c :: (plain ++ after)) <;> rfl

/-- The first thing found is the one with the least text before it. -/
theorem find?_filterMap_tails {p : α → Bool} (hnil : f [] = none) {cs : List Char} {a : α} :
    (cs.tails.filterMap f).find? p = some a ↔
      ∃ before after, cs = before ++ after ∧ f after = some a ∧ p a ∧
        ∀ before' after' a', cs = before' ++ after' → f after' = some a' → p a' →
          before.length ≤ before'.length := by
  induction cs with
  | nil =>
    have hnone : ∀ before after : List Char, [] = before ++ after → f after = none := by
      intro before after h
      rw [(List.append_eq_nil_iff.1 h.symm).2, hnil]
    constructor
    · intro h
      simp [hnil] at h
    · rintro ⟨before, after, heq, ha, -⟩
      rw [hnone before after heq] at ha
      exact absurd ha (by simp)
  | cons c rest ih =>
    by_cases hhead : ∃ b, f (c :: rest) = some b ∧ p b
    · obtain ⟨b, hb, hp⟩ := hhead
      rw [List.tails_cons, List.filterMap_cons, hb, List.find?_cons_of_pos hp]
      constructor
      · intro h
        obtain rfl := Option.some.inj h
        exact ⟨[], c :: rest, rfl, hb, hp, fun _ _ _ _ _ _ => Nat.zero_le _⟩
      · rintro ⟨before, after, heq, ha, -, hleast⟩
        have hempty : before = [] :=
          List.length_eq_zero_iff.1 (Nat.le_zero.1 (hleast [] (c :: rest) b rfl hb hp))
        subst hempty
        rw [List.nil_append] at heq
        rw [← heq, hb] at ha
        exact ha
    · -- nothing at the head, so the first thing lies behind it
      have hskip : ((c :: rest).tails.filterMap f).find? p =
          (rest.tails.filterMap f).find? p := by
        rw [List.tails_cons, List.filterMap_cons]
        cases hb : f (c :: rest) with
        | none => rfl
        | some b =>
          exact List.find?_cons_of_neg fun hp => hhead ⟨b, hb, hp⟩
      have hcons : ∀ before after a', c :: rest = before ++ after → f after = some a' → p a' →
          ∃ before', before = c :: before' ∧ rest = before' ++ after := by
        intro before after a' heq ha hp
        cases before with
        | nil => exact absurd ⟨a', by rw [List.nil_append] at heq; rw [heq]; exact ha, hp⟩ hhead
        | cons d before' =>
          obtain ⟨rfl, hrest⟩ := List.cons.inj heq
          exact ⟨before', rfl, hrest⟩
      rw [hskip, ih]
      constructor
      · rintro ⟨before, after, rfl, ha, hp, hleast⟩
        refine ⟨c :: before, after, rfl, ha, hp, fun before' after' a' heq ha' hp' => ?_⟩
        obtain ⟨before'', rfl, hrest⟩ := hcons before' after' a' heq ha' hp'
        exact Nat.succ_le_succ (hleast before'' after' a' hrest ha' hp')
      · rintro ⟨before, after, heq, ha, hp, hleast⟩
        obtain ⟨before', rfl, hrest⟩ := hcons before after a heq ha hp
        refine ⟨before', after, hrest, ha, hp, fun before'' after'' a' heq' ha' hp' => ?_⟩
        have hle := hleast (c :: before'') after'' a' (by rw [heq', List.cons_append]) ha' hp'
        exact Nat.le_of_succ_le_succ hle

end Places

theorem dollar_notMem_of_isDigit {digits : List Char} (h : ∀ d ∈ digits, d.isDigit) :
    '$' ∉ digits := fun hm => absurd (h _ hm) (by decide)

theorem range?_of_ne {c : Char} (h : c ≠ '$') (rest : List Char) : range? (c :: rest) = none := by
  unfold range?
  split
  · next heq => exact absurd (List.cons.inj heq).1 h
  · rfl

theorem singleAt?_of_ne (c : Char) (rest : List Char) (h : c ≠ '$') :
    singleAt? (c :: rest) = none := by
  rw [singleAt?, single?_of_ne h, Option.bind_none]

theorem rangeAt?_of_ne (c : Char) (rest : List Char) (h : c ≠ '$') :
    rangeAt? (c :: rest) = none := by
  rw [rangeAt?, range?_of_ne h, Option.bind_none]

theorem filterMap_index?_pieces (cs : List Char) :
    (pieces cs).filterMap Piece.index? = cs.tails.filterMap singleAt? := by
  apply scan_eq_filterMap_tails (fun cs => (pieces cs).filterMap Piece.index?) singleAt?_of_ne
  · rw [pieces_nil, List.filterMap_nil]
  · rfl
  · intro c rest
    cases hs : single? (c :: rest) with
    | some found =>
      obtain ⟨digits, after⟩ := found
      obtain ⟨⟨-, hdigits⟩, heq⟩ := single?_eq_some_iff.1 hs
      refine ⟨'\x7b' :: (digits ++ ['}']), after, (List.cons.inj heq).2, ?_, ?_⟩
      · simpa using dollar_notMem_of_isDigit hdigits
      · rw [pieces_of_single hs, List.filterMap_cons, singleAt?, hs, Option.bind_some, Piece.index?]
        cases index? digits <;> rfl
    | none =>
      refine ⟨[], rest, rfl, List.not_mem_nil, ?_⟩
      rw [pieces_cons hs, List.filterMap_cons, singleAt?, hs]
      rfl

theorem rangesOf_of_range {cs after : List Char} {digits : List Char × List Char}
    (h : range? cs = some (digits, after)) :
    rangesOf cs = (rangeOf? digits).toList ++ rangesOf after := by
  rw [rangesOf]
  split
  · next h' =>
    rw [h] at h'
    obtain ⟨rfl, rfl⟩ := Prod.mk.inj (Option.some.inj h')
    rfl
  · next h' => exact absurd h (by simp [h'])

theorem rangesOf_cons {c : Char} {rest : List Char} (h : range? (c :: rest) = none) :
    rangesOf (c :: rest) = rangesOf rest := by
  rw [rangesOf]
  split
  · next h' => exact absurd h' (by simp [h])
  · rfl

theorem rangesOf_nil : rangesOf [] = [] := by
  rw [rangesOf]
  rfl

theorem rangesOf_eq (cs : List Char) : rangesOf cs = cs.tails.filterMap rangeAt? := by
  apply scan_eq_filterMap_tails rangesOf rangeAt?_of_ne rangesOf_nil rfl
  intro c rest
  cases hr : range? (c :: rest) with
  | some found =>
    obtain ⟨⟨digits, digits'⟩, after⟩ := found
    obtain ⟨⟨-, hdigits⟩, hdigits', heq⟩ := range?_eq_some_iff.1 hr
    refine ⟨'\x7b' :: (digits ++ '.' :: '.' :: '.' :: (digits' ++ ['}'])), after,
      (List.cons.inj heq).2, ?_, ?_⟩
    · simpa using ⟨dollar_notMem_of_isDigit hdigits, dollar_notMem_of_isDigit hdigits'⟩
    · rw [rangesOf_of_range hr, rangeAt?, hr, Option.bind_some]
  | none =>
    refine ⟨[], rest, rfl, List.not_mem_nil, ?_⟩
    rw [rangesOf_cons hr, rangeAt?, hr]
    rfl

/-! ### In a text -/

variable {text : String}

theorem mem_singles_iff {i : Nat} :
    i ∈ singles text ↔ ∃ token, IsSingle i token ∧ token <:+: text.toList := by
  rw [singles, filterMap_index?_pieces]
  simp only [List.mem_filterMap, List.mem_tails, singleAt?_eq_some_iff,
    List.infix_iff_prefix_suffix]
  constructor
  · rintro ⟨after, hafter, token, htoken, hat⟩
    exact ⟨token, htoken, after, hat, hafter⟩
  · rintro ⟨token, htoken, after, hat, hafter⟩
    exact ⟨after, hafter, token, htoken, hat⟩

theorem mem_ranges_iff {r : Range} :
    r ∈ ranges text ↔ r.IsToken ∧ r.text <:+: text.toList := by
  rw [ranges, rangesOf_eq]
  simp only [List.mem_filterMap, List.mem_tails, rangeAt?_eq_some_iff,
    List.infix_iff_prefix_suffix]
  constructor
  · rintro ⟨after, hafter, htoken, hat⟩
    exact ⟨htoken, after, hat, hafter⟩
  · rintro ⟨htoken, after, hat, hafter⟩
    exact ⟨after, hafter, htoken, hat⟩

/-- The first range of a kind is the one of that kind with the least text before it. -/
theorem find?_ranges_eq_some_iff {p : Range → Bool} {r : Range} :
    (ranges text).find? p = some r ↔
      ∃ before after, text.toList = before ++ r.text ++ after ∧ r.IsToken ∧ p r ∧
        ∀ before' r' after', text.toList = before' ++ r'.text ++ after' → r'.IsToken → p r' →
          before.length ≤ before'.length := by
  rw [ranges, rangesOf_eq, find?_filterMap_tails rfl]
  simp only [rangeAt?_eq_some_iff]
  constructor
  · rintro ⟨before, _, heq, ⟨htoken, after, rfl⟩, hp, hleast⟩
    refine ⟨before, after, by rw [heq, List.append_assoc], htoken, hp, ?_⟩
    intro before' r' after' heq' htoken' hp'
    rw [List.append_assoc] at heq'
    exact hleast before' _ r' heq' ⟨htoken', List.prefix_append _ _⟩ hp'
  · rintro ⟨before, after, heq, htoken, hp, hleast⟩
    rw [List.append_assoc] at heq
    refine ⟨before, _, heq, ⟨htoken, List.prefix_append _ _⟩, hp, ?_⟩
    rintro before' _ r' heq' ⟨htoken', after', rfl⟩ hp'
    exact hleast before' r' after' (by rw [heq', List.append_assoc]) htoken' hp'

end SectionCompiler.Placeholder
