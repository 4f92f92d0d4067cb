import SectionCompiler.Proofs.Composed
import SectionCompiler.Proofs.Folding
import SectionCompiler.Proofs.Reach

/-! Placeholders that an expansion leaves. The arity counts every placeholder of a body, but of a
key only the first range is spread, and of a value only the first range, once in each comma part. So
with enough arguments nothing is left of the placeholders of a template just when no range stands in
the way of another one. -/

namespace SectionCompiler

open Placeholder

namespace Template

open Arity

/-- There are arguments for all placeholders of a text. -/
structure Served (limit : Nat) (args : List String) (text : String) : Prop where
  composed : Composed limit args text.toList (ranges text)
  slice : ∀ r ∈ ranges text, ∃ slice, r.slice? args = some slice ∧ slice ≠ []

theorem subset_of_slice? {r : Range} {args slice : List String} (h : r.slice? args = some slice) :
    slice ⊆ args := by
  obtain ⟨bounds, -, rfl⟩ := Option.map_eq_some_iff.1 h
  exact List.Subset.trans (List.take_subset _ _) (List.drop_subset _ _)

/-- The ranges of a value are written alike, and no comma part holds two of them. -/
structure SpreadsOver (text : String) : Prop where
  alike : ∀ r ∈ ranges text, ∀ r' ∈ ranges text, r.text = r'.text
  parts : ∀ part ∈ commaParts text, (ranges part).length ≤ 1

instance (text : String) : Decidable (SpreadsOver text) :=
  decidable_of_iff (_ ∧ _) ⟨fun h => ⟨h.1, h.2⟩, fun h => ⟨h.alike, h.parts⟩⟩

section Texts

variable {limit : Nat} {args : List String} {text : String} {r : Range}

theorem spread?_eq_none (h : firstRange? text = none) (args : List String) :
    spread? text args = none := by
  rw [spread?, h]
  rfl

/-- A served text has no range, or is spread over some of the arguments. -/
theorem Served.spread (h : Served limit args text) :
    (ranges text = [] ∧ spread? text args = none) ∨
      ∃ r slice, r ∈ ranges text ∧ spread? text args = some (r, slice) ∧ slice ≠ [] ∧
        slice ⊆ args := by
  cases hranges : ranges text with
  | nil => exact Or.inl ⟨rfl, spread?_eq_none (by simp [firstRange?, hranges]) args⟩
  | cons r rest =>
    obtain ⟨slice, hslice, hne⟩ := h.slice r (by simp [hranges])
    have hspread : spread? text args = some (r, slice) := by
      simp [spread?, firstRange?, hranges, hslice]
    exact Or.inr ⟨r, slice, List.mem_cons_self, hspread, hne, subset_of_slice? hslice⟩

theorem dollar_notMem_fill_iff {rs : List Range} (h : Composed limit args text.toList rs)
    (hargs : ∀ arg ∈ args, '$' ∉ arg.toList) :
    '$' ∉ (fill limit args text).toList ↔ rs = [] := by
  rw [toList_fill, h.dollar_mem_fillChars_iff hargs, not_not]

/-- Filling leaves nothing of a text that one range is spread in when that is its only range. -/
theorem dollar_notMem_fill_splice_iff {arg : String}
    (h : Composed limit args text.toList (ranges text)) (hr : r ∈ ranges text)
    (hargs : ∀ arg ∈ args, '$' ∉ arg.toList) (harg : arg ∈ args) :
    '$' ∉ (fill limit args (splice text r arg)).toList ↔ (ranges text).length = 1 := by
  obtain ⟨rs, hrs, hlen⟩ := h.replaceFirst hr (hargs arg harg)
  have hsplice : Composed limit args (splice text r arg).toList rs := by
    rwa [splice, String.toList_ofList]
  rw [dollar_notMem_fill_iff hsplice hargs, ← List.length_eq_zero_iff]
  omega

theorem dollar_notMem_spreadKey_iff (h : Served limit args text)
    (hargs : ∀ arg ∈ args, '$' ∉ arg.toList) :
    (∀ key ∈ spreadKey text args, '$' ∉ (fill limit args key).toList) ↔
      (ranges text).length ≤ 1 := by
  rcases h.spread with ⟨hnone, hspread⟩ | ⟨r, slice, hr, hspread, hne, hsubset⟩
  · have hfill := (dollar_notMem_fill_iff h.composed hargs).2 hnone
    simpa [spreadKey, hspread, hnone] using hfill
  · have hsplice : ∀ arg ∈ slice, '$' ∉ (fill limit args (splice text r arg)).toList ↔
        (ranges text).length = 1 := by
      intro arg harg
      exact dollar_notMem_fill_splice_iff h.composed hr hargs (hsubset harg)
    obtain ⟨arg, harg⟩ := List.exists_mem_of_ne_nil slice hne
    rw [spreadKey, hspread, List.forall_mem_map]
    constructor
    · intro hall
      exact Nat.le_of_eq ((hsplice arg harg).1 (hall arg harg))
    · intro hle arg harg
      have hpos := List.length_pos_of_mem hr
      exact (hsplice arg harg).2 (by omega)

theorem composed_commaParts (h : Composed limit args text.toList (ranges text)) :
    ranges text = (commaParts text).flatMap ranges ∧
      ∀ part ∈ commaParts text, Composed limit args part.toList (ranges part) := by
  have hsplit : [','].intercalate (text.toList.splitOn ',') = text.toList :=
    List.intercalate_splitOn ','
  rw [← hsplit] at h
  obtain ⟨hranges, hparts⟩ := h.parts
  constructor
  · simpa [commaParts, List.flatMap_map, ranges] using hranges
  · simpa [commaParts, ranges] using hparts

def spreadPart (r : Range) (slice : List String) (part : String) : List String :=
  if Text.occursIn r.text part.toList then slice.map (splice part r) else [part]

theorem spreadValue_eq {slice : List String} (h : spread? text args = some (r, slice)) :
    spreadValue text args =
      String.intercalate "," ((commaParts text).flatMap (spreadPart r slice)) := by
  rw [spreadValue, h]
  rfl

variable {slice : List String} {part : String}

theorem composed_spreadPart (h : Composed limit args part.toList (ranges part)) (hr : r.IsToken)
    (hslice : ∀ arg ∈ slice, '$' ∉ arg.toList) {q : String} (hq : q ∈ spreadPart r slice part) :
    Composed limit args q.toList (ranges q) ∧
      (ranges q).length =
        if r ∈ ranges part then (ranges part).length - 1 else (ranges part).length := by
  unfold spreadPart at hq
  split at hq
  · next hoccurs =>
    have hmem := (h.occursIn_iff hr).1 hoccurs
    obtain ⟨arg, harg, rfl⟩ := List.mem_map.1 hq
    obtain ⟨rs, hrs, hlen⟩ := h.replaceFirst hmem (hslice arg harg)
    have hranges : ranges (splice part r arg) = rs := by
      rw [ranges, splice, String.toList_ofList, hrs.rangesOf_eq]
    rw [hranges, splice, String.toList_ofList, if_pos hmem]
    exact ⟨hrs, by omega⟩
  · next hoccurs =>
    have hmem : r ∉ ranges part := fun hmem => hoccurs ((h.occursIn_iff hr).2 hmem)
    obtain rfl := List.mem_singleton.1 hq
    exact ⟨h, (if_neg hmem).symm⟩

theorem spreadPart_ne_nil (hne : slice ≠ []) : spreadPart r slice part ≠ [] := by
  unfold spreadPart
  split
  · simpa using hne
  · simp

/-- Of a comma part no range is left when it has none, or only the one that is spread. -/
theorem ranges_spreadPart_iff (h : Composed limit args part.toList (ranges part)) (hr : r.IsToken)
    (hslice : ∀ arg ∈ slice, '$' ∉ arg.toList) (hne : slice ≠ []) :
    (∀ q ∈ spreadPart r slice part, ranges q = []) ↔
      (ranges part).length ≤ 1 ∧ ∀ r' ∈ ranges part, r' = r := by
  have hlen : (∀ q ∈ spreadPart r slice part, ranges q = []) ↔
      (if r ∈ ranges part then (ranges part).length - 1 else (ranges part).length) = 0 := by
    constructor
    · intro hall
      have hnonempty : spreadPart r slice part ≠ [] := spreadPart_ne_nil hne
      obtain ⟨q, hq⟩ := List.exists_mem_of_ne_nil _ hnonempty
      rw [← (composed_spreadPart h hr hslice hq).2, hall q hq, List.length_nil]
    · intro hzero q hq
      rw [← List.length_eq_zero_iff, (composed_spreadPart h hr hslice hq).2, hzero]
  -- the part holds the range that is spread, or else it stays as it is
  rw [hlen]
  split
  · next hmem =>
    constructor
    · intro hzero
      obtain ⟨r', hr'⟩ := List.length_eq_one_iff.1 (show (ranges part).length = 1 by
        have := List.length_pos_of_mem hmem
        omega)
      rw [hr'] at hmem ⊢
      obtain rfl := List.mem_singleton.1 hmem
      exact ⟨Nat.le_refl 1, fun r' hr' => List.mem_singleton.1 hr'⟩
    · rintro ⟨hle, -⟩
      omega
  · next hmem =>
    constructor
    · intro hzero
      simp [List.length_eq_zero_iff.1 hzero]
    · rintro ⟨-, hall⟩
      rw [List.length_eq_zero_iff, List.eq_nil_iff_forall_not_mem]
      intro r' hr'
      exact hmem (hall r' hr' ▸ hr')

theorem spreadsOver_iff (hranges : ranges text = (commaParts text).flatMap ranges)
    (hr : r ∈ ranges text) (h : Composed limit args text.toList (ranges text)) :
    SpreadsOver text ↔
      ∀ part ∈ commaParts text, (ranges part).length ≤ 1 ∧ ∀ r' ∈ ranges part, r' = r := by
  have hmem : ∀ r', r' ∈ ranges text ↔ ∃ part ∈ commaParts text, r' ∈ ranges part := by
    intro r'
    rw [hranges, List.mem_flatMap]
  constructor
  · rintro ⟨halike, hparts⟩ part hpart
    refine ⟨hparts part hpart, fun r' hr' => ?_⟩
    have hr'' := (hmem r').2 ⟨part, hpart, hr'⟩
    exact (h.isToken hr'').eq_of_text (h.isToken hr) (halike r' hr'' r hr)
  · intro hall
    have heq : ∀ r' ∈ ranges text, r' = r := by
      intro r' hr'
      obtain ⟨part, hpart, hr'⟩ := (hmem r').1 hr'
      exact (hall part hpart).2 r' hr'
    refine ⟨fun r₁ h₁ r₂ h₂ => ?_, fun part hpart => (hall part hpart).1⟩
    rw [heq r₁ h₁, heq r₂ h₂]

theorem composed_spreadValue (hspread : spread? text args = some (r, slice))
    (hqs : ∀ q ∈ (commaParts text).flatMap (spreadPart r slice),
      Composed limit args q.toList (ranges q)) :
    Composed limit args (spreadValue text args).toList
      (((commaParts text).flatMap (spreadPart r slice)).flatMap ranges) := by
  have hwhole := Composed.intercalate (List.forall_mem_map.2 hqs)
  rw [List.flatMap_map] at hwhole
  rw [spreadValue_eq hspread, String.toList_intercalate]
  exact hwhole

/-- Of a value no range is left when its ranges are written alike and stand in parts of their
own. -/
theorem dollar_notMem_spreadValue_iff (h : Served limit args text)
    (hargs : ∀ arg ∈ args, '$' ∉ arg.toList) :
    '$' ∉ (fill limit args (spreadValue text args)).toList ↔ SpreadsOver text := by
  obtain ⟨hranges, hparts⟩ := composed_commaParts h.composed
  rcases h.spread with ⟨hnone, hspread⟩ | ⟨r, slice, hr, hspread, hne, hsubset⟩
  · have hfill := (dollar_notMem_fill_iff h.composed hargs).2 hnone
    rw [hnone] at hranges
    have hpart : ∀ part ∈ commaParts text, ranges part = [] :=
      List.flatMap_eq_nil_iff.1 hranges.symm
    simp only [spreadValue, hspread, hfill, not_false_eq_true, true_iff]
    exact ⟨by simp [hnone], fun part hm => by simp [hpart part hm]⟩
  · have htoken := h.composed.isToken hr
    have hplain : ∀ arg ∈ slice, '$' ∉ arg.toList := fun arg harg => hargs arg (hsubset harg)
    have hqs : ∀ q ∈ (commaParts text).flatMap (spreadPart r slice),
        Composed limit args q.toList (ranges q) := by
      intro q hq
      obtain ⟨part, hpart, hq⟩ := List.mem_flatMap.1 hq
      exact (composed_spreadPart (hparts part hpart) htoken hplain hq).1
    rw [dollar_notMem_fill_iff (composed_spreadValue hspread hqs) hargs, List.flatMap_eq_nil_iff,
      spreadsOver_iff hranges hr h.composed, List.forall_mem_flatMap]
    exact forall₂_congr fun part hpart =>
      ranges_spreadPart_iff (hparts part hpart) htoken hplain hne

end Texts

/-! ### The entries of an expansion -/

/-- No placeholder of a text begins at the greatest index. -/
def BeginsBelowLast (text : String) : Prop :=
  2 ^ 64 - 1 ∉ singles text ∧ ∀ r ∈ ranges text, r.first ≠ 2 ^ 64 - 1

instance (text : String) : Decidable (BeginsBelowLast text) := inferInstanceAs (Decidable (_ ∧ _))

theorem exists_slice {r : Range} {last : Nat} (hlast : r.last = some last) (hle : r.first ≤ last)
    {args : List String} (hlt : r.first < args.length) :
    ∃ slice, r.slice? args = some slice ∧ slice ≠ [] := by
  have hne : args.length ≠ 0 := by omega
  have hmin : r.first ≤ min last (args.length - 1) := by omega
  refine ⟨(args.drop r.first).take (min last (args.length - 1) + 1 - r.first), ?_, ?_⟩
  · rw [Range.slice?, Range.bounded?, if_neg hne, hlast]
    dsimp only
    rw [if_pos hmin, Option.map_some]
  · apply List.ne_nil_of_length_pos
    rw [List.length_take, List.length_drop]
    omega

variable {name : String} {body : Section} {n : Nat} {args : List String}

theorem Bounded.served (h : Bounded body n) {text : String} (htext : text ∈ texts body)
    (hspelled : Spelled text.toList) (hbelow : BeginsBelowLast text) (hlen : n ≤ args.length) :
    Served n args text := by
  have hlt : ∀ i, Covered body i → i < 2 ^ 64 → i ≠ 2 ^ 64 - 1 → i < n := by
    intro i hi hbound hne
    rcases h.covered_lt i hi with hlt | hge
    · exact hlt
    · omega
  constructor
  · apply hspelled.composed
    intro i token htoken hin
    have hcovered : Covered body i := Or.inl ⟨text, htext, token, htoken, hin⟩
    have hne : i ≠ 2 ^ 64 - 1 := by
      rintro rfl
      exact hbelow.1 (mem_singles_iff.2 ⟨token, htoken, hin⟩)
    obtain ⟨digits, hspells, rfl⟩ := htoken
    have hi := hlt i hcovered hspells.lt_bound hne
    exact ⟨digits, i, rfl, hspells.isDigit, (index?_eq_some_iff hspells.isDigit).2 hspells, hi,
      by omega⟩
  · intro r hr
    obtain ⟨last, hlast, hle⟩ := h.exists_last htext hr
    have hcovered := covered_of_range htext hr hlast le_rfl hle
    obtain ⟨⟨digits, digits', hspells, -⟩, -⟩ : IsClosedRange r.first last r.text ∧ _ := by
      have := mem_ranges_iff.1 hr
      rwa [Range.IsToken, hlast] at this
    have hfirst := hlt r.first hcovered hspells.lt_bound (hbelow.2 r hr)
    exact exists_slice hlast hle (by omega)

def DollarFree (e : Entry) : Prop := ∀ text ∈ e.1 :: e.2.strings, '$' ∉ text.toList

instance (e : Entry) : Decidable (DollarFree e) := inferInstanceAs (Decidable (∀ text ∈ _, _))

/-- No range of an entry stands in the way of another one. -/
structure SpreadsOnce (e : Entry) : Prop where
  key : (ranges e.1).length ≤ 1
  value : ∀ text ∈ e.2.strings, SpreadsOver text

instance (e : Entry) : Decidable (SpreadsOnce e) :=
  decidable_of_iff (_ ∧ _) ⟨fun h => ⟨h.1, h.2⟩, fun h => ⟨h.key, h.value⟩⟩

theorem spreadKey_ne_nil {key : String} (h : Served n args key) : spreadKey key args ≠ [] := by
  rcases h.spread with ⟨-, hspread⟩ | ⟨r, slice, -, hspread, hne, -⟩
  · simp [spreadKey, hspread]
  · simpa [spreadKey, hspread] using hne

theorem dollarFree_expandEntry_iff {e : Entry} (h : ∀ text ∈ e.1 :: e.2.strings, Served n args text)
    (hargs : ∀ arg ∈ args, '$' ∉ arg.toList) :
    (∀ e' ∈ expandEntry n args e, DollarFree e') ↔ SpreadsOnce e := by
  obtain ⟨hkey, hvalue⟩ := List.forall_mem_cons.1 h
  have hkeys := dollar_notMem_spreadKey_iff hkey hargs
  have hvalues : (∀ text ∈ e.2.strings, '$' ∉ (fill n args (spreadValue text args)).toList) ↔
      ∀ text ∈ e.2.strings, SpreadsOver text :=
    forall₂_congr fun text htext => dollar_notMem_spreadValue_iff (hvalue text htext) hargs
  obtain ⟨first, hfirst⟩ := List.exists_mem_of_ne_nil _ (spreadKey_ne_nil hkey)
  simp only [expandEntry, DollarFree, List.forall_mem_map, List.forall_mem_cons,
    Value.strings_map]
  constructor
  · intro hall
    exact ⟨hkeys.1 fun key hm => (hall key hm).1, hvalues.1 (hall first hfirst).2⟩
  · rintro ⟨honce, hover⟩ key hm
    exact ⟨hkeys.2 honce key hm, hvalues.2 hover⟩

/-- With an argument for every placeholder and no dollar sign in the arguments, the entries that a
template gives are free of dollar signs just when no range of the body stands in the way of another
one, and then so is the expansion. -/
theorem dollarFree_iff_spreadsOnce {t : Template} (h : ofBody name body = .ok t)
    (ht : t.arity = .finite n) (hspelled : ∀ text ∈ texts body, Spelled text.toList)
    (hbelow : ∀ text ∈ texts body, BeginsBelowLast text) (hlen : n ≤ args.length)
    (hargs : ∀ arg ∈ args, '$' ∉ arg.toList) :
    ((∀ e ∈ t.entriesFor args, DollarFree e) ↔ ∀ e ∈ body.entries, SpreadsOnce e) ∧
      ((∀ e ∈ body.entries, SpreadsOnce e) → ∀ e ∈ (t.expand args).entries, DollarFree e) := by
  obtain rfl := eq_of_ofBody h ht
  have hbounded := bounded_of_ofBody h
  have hentries : (∀ e ∈ entriesFor ⟨name, body, .finite n⟩ args, DollarFree e) ↔
      ∀ e ∈ body.entries, SpreadsOnce e := by
    simp only [entriesFor, effective, List.forall_mem_flatMap]
    refine forall₂_congr fun e he => dollarFree_expandEntry_iff (fun text hm => ?_) hargs
    have htext : text ∈ texts body := List.mem_flatMap.2 ⟨e, he, hm⟩
    exact hbounded.served htext (hspelled text htext) (hbelow text htext) hlen
  refine ⟨hentries, fun honce e he => hentries.2 honce e ?_⟩
  exact Section.mem_of_mem_fold he

def gunDeck : Template where
  name := "gun deck"
  body := ⟨[("Gun $\x7b0...1\x7d", .scalar "$\x7b2\x7d"),
    ("Crew", .list ["$\x7b0...1\x7d,all $\x7b0...1\x7d of $\x7b2\x7d"])]⟩
  arity := .finite 3

theorem dollarFree_iff_spreadsOnce_gunDeck :
    ofBody "gun deck" gunDeck.body = .ok gunDeck ∧ gunDeck.arity = .finite 3 ∧
      (∀ text ∈ texts gunDeck.body, Spelled text.toList) ∧
      (∀ text ∈ texts gunDeck.body, BeginsBelowLast text) ∧
      3 ≤ ["bow", "stern", "Rose", "spare"].length ∧
      (∀ arg ∈ ["bow", "stern", "Rose", "spare"], '$' ∉ arg.toList) ∧
      ∀ e ∈ (gunDeck.expand ["bow", "stern", "Rose", "spare"]).entries, DollarFree e := by
  have hbody : ofBody "gun deck" gunDeck.body = .ok gunDeck := by
    rw [ofBody, ofBody_eq_search]
    decide +kernel
  have hspelled : ∀ text ∈ texts gunDeck.body, Spelled text.toList := by decide +kernel
  have hbelow : ∀ text ∈ texts gunDeck.body, BeginsBelowLast text := by decide +kernel
  have hargs : ∀ arg ∈ ["bow", "stern", "Rose", "spare"], '$' ∉ arg.toList := by decide
  have honce : ∀ e ∈ gunDeck.body.entries, SpreadsOnce e := by decide +kernel
  refine ⟨hbody, rfl, hspelled, hbelow, by decide, hargs, ?_⟩
  exact (dollarFree_iff_spreadsOnce hbody rfl hspelled hbelow (by decide) hargs).2 honce

/-- All dollar signs of a template begin placeholders, and with as many arguments as its arity says,
none with a dollar sign, one is left. -/
def LeavesOne (t : Template) (n : Nat) (args : List String) : Prop :=
  ofBody t.name t.body = .ok t ∧ t.arity = .finite n ∧
    (∀ text ∈ texts t.body, Spelled text.toList) ∧ n ≤ args.length ∧
    (∀ arg ∈ args, '$' ∉ arg.toList) ∧ ∃ e ∈ (t.expand args).entries, ¬ DollarFree e

instance (t : Template) (n : Nat) (args : List String) : Decidable (LeavesOne t n args) :=
  inferInstanceAs (Decidable (_ ∧ _))

/-- The last gun has the greatest index, which is as great as the arity can be. -/
def lastGun : Template where
  name := "last gun"
  body := ⟨[("$\x7b0...18446744073709551614\x7d", .scalar ""),
    ("Last", .scalar "$\x7b18446744073709551615\x7d")]⟩
  arity := .finite (2 ^ 64 - 1)

theorem expandEntry_lastGun (args : List String) :
    expandEntry (2 ^ 64 - 1) args ("Last", .scalar "$\x7b18446744073709551615\x7d") =
      [("Last", .scalar "$\x7b18446744073709551615\x7d")] := by
  have hkey : spreadKey "Last" args = ["Last"] := by
    rw [spreadKey, spread?_eq_none (by decide +kernel)]
  have hvalue : spreadValue "$\x7b18446744073709551615\x7d" args =
      "$\x7b18446744073709551615\x7d" := by
    rw [spreadValue, spread?_eq_none (by decide +kernel)]
  have hfill : fill (2 ^ 64 - 1) args "Last" = "Last" := by
    have hpieces : pieces "Last".toList = "Last".toList.map .char := by decide +kernel
    rw [fill, hpieces]
    rfl
  have hfill' : fill (2 ^ 64 - 1) args "$\x7b18446744073709551615\x7d" =
      "$\x7b18446744073709551615\x7d" := by
    have hpieces : pieces "$\x7b18446744073709551615\x7d".toList =
        [.single "18446744073709551615".toList] := by decide +kernel
    have hindex : index? "18446744073709551615".toList = some (2 ^ 64 - 1) := by decide +kernel
    rw [fill, hpieces, List.flatMap_singleton, Piece.fill, Piece.index?, hindex]
    dsimp only
    rw [if_neg (Nat.lt_irrefl _)]
    decide
  simp only [expandEntry, hkey, hvalue, hfill, hfill', Value.map, List.map_singleton]

theorem mem_expand_lastGun (args : List String) :
    ("Last", .scalar "$\x7b18446744073709551615\x7d") ∈ (lastGun.expand args).entries := by
  have hentries : lastGun.entriesFor args =
      expandEntry (2 ^ 64 - 1) args ("$\x7b0...18446744073709551614\x7d", .scalar "") ++
        [("Last", .scalar "$\x7b18446744073709551615\x7d")] := by
    rw [← expandEntry_lastGun args]
    simp [entriesFor, lastGun, effective]
  have hget : (lastGun.expand args).get? "Last" =
      some (.scalar "$\x7b18446744073709551615\x7d") := by
    rw [expand, Section.get?_fold, hentries, Section.get?, List.reverse_append]
    rfl
  rw [expand, Section.get?_of_nodup (Section.nodup_keys_fold _)] at hget
  exact (lookup_eq_some_iff_mem (Section.nodup_keys_fold _)).1 hget

theorem leavesOne_lastGun :
    LeavesOne lastGun (2 ^ 64 - 1) (List.replicate (2 ^ 64 - 1) "bow") := by
  have hbody : ofBody lastGun.name lastGun.body = .ok lastGun := by
    rw [ofBody, ofBody_eq_search]
    decide +kernel
  have hspelled : ∀ text ∈ texts lastGun.body, Spelled text.toList := by decide +kernel
  refine ⟨hbody, rfl, hspelled, Nat.le_of_eq List.length_replicate.symm, ?_, _,
    mem_expand_lastGun _, by decide⟩
  intro arg harg
  rw [List.eq_of_mem_replicate harg]
  decide

/-- A second range in a key, in a comma part, or in another part and written in another way, is
counted and not spread, and the greatest index is counted and not filled in. -/
theorem placeholder_left :
    LeavesOne ⟨"deck", ⟨[("$\x7b0...0\x7d to $\x7b1...1\x7d", .scalar "loaded")]⟩, .finite 2⟩ 2
        ["bow", "stern"] ∧
      LeavesOne ⟨"deck", ⟨[("Guns", .scalar "$\x7b0...0\x7d to $\x7b1...1\x7d")]⟩, .finite 2⟩ 2
        ["bow", "stern"] ∧
      LeavesOne ⟨"deck", ⟨[("Guns", .scalar "$\x7b0...0\x7d,$\x7b1...1\x7d")]⟩, .finite 2⟩ 2
        ["bow", "stern"] ∧
      LeavesOne lastGun (2 ^ 64 - 1) (List.replicate (2 ^ 64 - 1) "bow") := by
  refine ⟨?_, ?_, ?_, leavesOne_lastGun⟩
  · rw [LeavesOne, ofBody, ofBody_eq_search]
    decide +kernel
  · rw [LeavesOne, ofBody, ofBody_eq_search]
    decide +kernel
  · rw [LeavesOne, ofBody, ofBody_eq_search]
    decide +kernel

end Template

end SectionCompiler
