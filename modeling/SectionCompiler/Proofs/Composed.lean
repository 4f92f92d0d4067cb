import SectionCompiler.Proofs.Occurrence
import SectionCompiler.Proofs.Text

/-! Texts in which each dollar sign begins a placeholder. Such a text is made of ordinary
characters, singles and ranges. When its singles are live, filling leaves a dollar sign in it just
when it has a range, and putting a text without dollar signs in for a range takes one range away. -/

namespace SectionCompiler

namespace Text

theorem cutAround_append {needle : List Char} (h : needle ≠ []) (after : List Char) :
    cutAround needle (needle ++ after) = some ([], after) := by
  cases needle with
  | nil => exact absurd rfl h
  | cons c needle =>
    rw [List.cons_append, cutAround, ← List.cons_append, isPrefixOf?_eq_some_iff.2 rfl]

theorem cutAround_cons_of_none {needle rest : List Char} {c : Char}
    (h : needle.isPrefixOf? (c :: rest) = none) : cutAround needle (c :: rest) =
      (cutAround needle rest).map fun (before, after) => (c :: before, after) := by
  rw [cutAround, h]

theorem cutAround_append_of_notMem {c : Char} {needle plain : List Char} (h : c ∉ plain)
    (after : List Char) : cutAround (c :: needle) (plain ++ after) =
      (cutAround (c :: needle) after).map fun (before, rest) => (plain ++ before, rest) := by
  induction plain with
  | nil => exact Option.map_id'.symm
  | cons d plain ih =>
    obtain ⟨hd, hplain⟩ := List.ne_and_not_mem_of_not_mem_cons h
    have hnone : (c :: needle).isPrefixOf? (d :: (plain ++ after)) = none := by
      rw [isPrefixOf?_cons_cons, if_neg (by simpa using hd)]
    rw [List.cons_append, cutAround_cons_of_none hnone, ih hplain, Option.map_map]
    rfl

end Text

namespace Placeholder

/-! ### The text of a placeholder -/

/-- One dollar sign, at the head, and no comma. -/
def IsTokenText (token : List Char) : Prop :=
  ∃ plain, token = '$' :: plain ∧ '$' ∉ plain ∧ ',' ∉ plain

theorem comma_notMem_of_isDigit {digits : List Char} (h : ∀ d ∈ digits, d.isDigit) :
    ',' ∉ digits := fun hm => absurd (h _ hm) (by decide)

theorem isTokenText_single {digits : List Char} (h : ∀ d ∈ digits, d.isDigit) :
    IsTokenText (Piece.single digits).source := by
  refine ⟨'\x7b' :: (digits ++ ['}']), rfl, ?_, ?_⟩
  · simpa using dollar_notMem_of_isDigit h
  · simpa using comma_notMem_of_isDigit h

theorem isTokenText_rangeText {digits digits' : List Char} (h : ∀ d ∈ digits, d.isDigit)
    (h' : ∀ d ∈ digits', d.isDigit) : IsTokenText (rangeText digits digits') := by
  refine ⟨'\x7b' :: (digits ++ '.' :: '.' :: '.' :: (digits' ++ ['}'])), rfl, ?_, ?_⟩
  · simpa using ⟨dollar_notMem_of_isDigit h, dollar_notMem_of_isDigit h'⟩
  · simpa using ⟨comma_notMem_of_isDigit h, comma_notMem_of_isDigit h'⟩

theorem IsLive.isTokenText {limit : Nat} {args : List String} {token : List Char}
    (h : IsLive limit args token) : IsTokenText token := by
  obtain ⟨digits, i, rfl, hdigits, -⟩ := h
  exact isTokenText_single hdigits

theorem Range.IsToken.isTokenText {r : Range} (h : r.IsToken) : IsTokenText r.text := by
  obtain ⟨text, first, last⟩ := r
  cases last with
  | none =>
    obtain ⟨digits, hspells, rfl⟩ := h
    exact isTokenText_rangeText hspells.isDigit (by simp)
  | some last =>
    obtain ⟨digits, digits', hspells, hspells', rfl⟩ := h
    exact isTokenText_rangeText hspells.isDigit hspells'.isDigit

/-- At the head of a text stands a single or a range, but not both. -/
theorem range?_of_single {cs : List Char} {found : List Char × List Char}
    (h : single? cs = some found) : range? cs = none := by
  obtain ⟨digits, after⟩ := found
  obtain ⟨⟨-, hdigits⟩, rfl⟩ := single?_eq_some_iff.1 h
  have hend : ('}' :: after).dropWhile Char.isDigit = '}' :: after := rfl
  simp [Piece.source, range?, List.dropWhile_append_of_pos hdigits, hend]

theorem rangeAt?_single {digits : List Char} (hne : digits ≠ []) (h : ∀ d ∈ digits, d.isDigit)
    (after : List Char) : rangeAt? ((Piece.single digits).source ++ after) = none := by
  rw [rangeAt?, range?_of_single (single?_eq_some_iff.2 ⟨⟨hne, h⟩, rfl⟩), Option.bind_none]

theorem rangeAt?_of_isLive {limit : Nat} {args : List String} {token : List Char}
    (h : IsLive limit args token) (after : List Char) : rangeAt? (token ++ after) = none := by
  obtain ⟨digits, i, rfl, hdigits, hi, -⟩ := h
  exact rangeAt?_single ((index?_eq_some_iff hdigits).1 hi).ne_nil hdigits after

theorem rangeAt?_isToken {r : Range} (h : r.IsToken) (after : List Char) :
    rangeAt? (r.text ++ after) = some r :=
  rangeAt?_eq_some_iff.2 ⟨h, List.prefix_append _ _⟩

/-- A text is the text of one range only. -/
theorem Range.IsToken.eq_of_text {r r' : Range} (h : r.IsToken) (h' : r'.IsToken)
    (htext : r.text = r'.text) : r = r' := by
  have hr := rangeAt?_isToken h []
  rw [htext, rangeAt?_isToken h' []] at hr
  exact (Option.some.inj hr).symm

theorem single?_isToken {r : Range} (h : r.IsToken) (after : List Char) :
    single? (r.text ++ after) = none := by
  cases hs : single? (r.text ++ after) with
  | none => rfl
  | some found =>
    have hr := rangeAt?_isToken h after
    rw [rangeAt?, range?_of_single hs] at hr
    exact absurd hr (by simp)

/-- Behind the head of a placeholder no other one begins. -/
theorem rangesOf_append {token : List Char} (h : IsTokenText token) (after : List Char) :
    rangesOf (token ++ after) = (rangeAt? (token ++ after)).toList ++ rangesOf after := by
  obtain ⟨plain, rfl, hplain, -⟩ := h
  rw [rangesOf_eq, rangesOf_eq, List.cons_append, List.tails_cons, List.filterMap_cons,
    filterMap_tails_append rangeAt?_of_ne hplain]
  cases rangeAt? ('$' :: (plain ++ after)) <;> rfl

theorem cutAround_append {r : Range} {token after : List Char} (hr : r.IsToken)
    (htoken : IsTokenText token) (hne : rangeAt? (token ++ after) ≠ some r) :
    Text.cutAround r.text (token ++ after) =
      (Text.cutAround r.text after).map fun (before, rest) => (token ++ before, rest) := by
  have hnone : r.text.isPrefixOf? (token ++ after) = none := by
    rw [Option.eq_none_iff_forall_ne_some]
    intro rest hrest
    exact hne (rangeAt?_eq_some_iff.2 ⟨hr, rest, (Text.isPrefixOf?_eq_some_iff.1 hrest).symm⟩)
  obtain ⟨plain, rfl, hplain, -⟩ := htoken
  obtain ⟨plain', hplain', -⟩ := hr.isTokenText
  rw [List.cons_append] at hnone ⊢
  rw [Text.cutAround_cons_of_none hnone, hplain', Text.cutAround_append_of_notMem hplain,
    Option.map_map]
  rfl

/-! ### Composed texts -/

/-- A text that is made of ordinary characters, live singles and the given ranges. -/
inductive Composed (limit : Nat) (args : List String) : List Char → List Range → Prop
  | nil : Composed limit args [] []
  | char {c : Char} {rest : List Char} {rs : List Range} :
      c ≠ '$' → Composed limit args rest rs → Composed limit args (c :: rest) rs
  | single {token after : List Char} {rs : List Range} :
      IsLive limit args token → Composed limit args after rs →
      Composed limit args (token ++ after) rs
  | range {r : Range} {after : List Char} {rs : List Range} :
      r.IsToken → Composed limit args after rs → Composed limit args (r.text ++ after) (r :: rs)

/-- A placeholder stands at the head of a text. -/
def Begins (cs : List Char) : Prop :=
  (∃ i token, IsSingle i token ∧ token <+: cs) ∨ ∃ r : Range, r.IsToken ∧ r.text <+: cs

theorem begins_iff {cs : List Char} :
    Begins cs ↔ (singleAt? cs).isSome ∨ (rangeAt? cs).isSome := by
  simp only [Begins, Option.isSome_iff_exists, singleAt?_eq_some_iff, rangeAt?_eq_some_iff]

/-- Every dollar sign of a text begins a placeholder. -/
def Spelled (cs : List Char) : Prop :=
  ∀ before after, cs = before ++ '$' :: after → Begins ('$' :: after)

theorem spelled_iff {cs : List Char} :
    Spelled cs ↔ ∀ tail ∈ cs.tails, tail.head? = some '$' →
      (singleAt? tail).isSome ∨ (rangeAt? tail).isSome := by
  simp only [List.mem_tails, ← begins_iff]
  constructor
  · rintro h tail ⟨before, rfl⟩ hhead
    obtain ⟨after, rfl⟩ := List.head?_eq_some_iff.1 hhead
    exact h before after rfl
  · rintro h before after rfl
    exact h _ (List.suffix_append _ _) rfl

instance (cs : List Char) : Decidable (Spelled cs) := decidable_of_iff _ spelled_iff.symm

theorem Spelled.of_append {before after : List Char} (h : Spelled (before ++ after)) :
    Spelled after := by
  intro front rest hrest
  exact h (before ++ front) rest (by rw [hrest, List.append_assoc])

variable {limit : Nat} {args : List String}

/-- A text whose dollar signs begin placeholders, the singles among them live, is composed. -/
theorem Spelled.composed {cs : List Char} (h : Spelled cs)
    (hlive : ∀ i token, IsSingle i token → token <:+: cs → IsLive limit args token) :
    Composed limit args cs (rangesOf cs) := by
  induction hn : cs.length using Nat.strongRecOn generalizing cs with
  | _ n ih =>
    subst hn
    have htail {front after : List Char} (hcs : cs = front ++ after) (hfront : front ≠ []) :
        Composed limit args after (rangesOf after) := by
      have hpos := List.length_pos_iff.2 hfront
      refine ih after.length (by rw [hcs, List.length_append]; omega) (hcs ▸ h).of_append
        (fun i token htoken hin => hlive i token htoken ?_) rfl
      exact hin.trans (hcs ▸ (List.suffix_append front after).isInfix)
    cases cs with
    | nil => exact rangesOf_nil ▸ .nil
    | cons c rest =>
      by_cases hc : c = '$'
      · subst hc
        rcases h [] rest rfl with ⟨i, token, htoken, after, heq⟩ | ⟨r, htoken, after, heq⟩
        · have hsingle := hlive i token htoken ⟨[], after, heq⟩
          have hrest := htail heq.symm (List.ne_nil_of_length_pos hsingle.length_pos)
          rw [← heq, rangesOf_append hsingle.isTokenText, rangeAt?_of_isLive hsingle]
          exact .single hsingle hrest
        · obtain ⟨plain, hplain, -⟩ := htoken.isTokenText
          have hrest := htail heq.symm (by simp [hplain])
          rw [← heq, rangesOf_append htoken.isTokenText, rangeAt?_isToken htoken]
          exact .range htoken hrest
      · rw [rangesOf_cons (range?_of_ne hc rest)]
        have hcons : c :: rest = [c] ++ rest := rfl
        exact .char hc (htail hcons (by simp))

namespace Composed

variable {cs cs' : List Char} {rs rs' : List Range}

theorem rangesOf_eq (h : Composed limit args cs rs) : rangesOf cs = rs := by
  induction h with
  | nil => exact rangesOf_nil
  | char hc _ ih => rw [rangesOf_cons (range?_of_ne hc _), ih]
  | single hlive _ ih =>
    rw [rangesOf_append hlive.isTokenText, rangeAt?_of_isLive hlive, ih]
    rfl
  | range hr _ ih =>
    rw [rangesOf_append hr.isTokenText, rangeAt?_isToken hr, ih]
    rfl

theorem append (h : Composed limit args cs rs) (h' : Composed limit args cs' rs') :
    Composed limit args (cs ++ cs') (rs ++ rs') := by
  induction h with
  | nil => exact h'
  | char hc _ ih => exact .char hc ih
  | single hlive _ ih =>
    rw [List.append_assoc]
    exact .single hlive ih
  | range hr _ ih =>
    rw [List.append_assoc]
    exact .range hr ih

theorem of_notMem (h : '$' ∉ cs) : Composed limit args cs [] := by
  induction cs with
  | nil => exact .nil
  | cons c rest ih =>
    obtain ⟨hc, hrest⟩ := List.ne_and_not_mem_of_not_mem_cons h
    exact .char (Ne.symm hc) (ih hrest)

/-- A dollar sign is left by filling just when there is a range. -/
theorem dollar_mem_fillChars_iff (h : Composed limit args cs rs)
    (hargs : ∀ arg ∈ args, '$' ∉ arg.toList) : '$' ∈ fillChars limit args cs ↔ rs ≠ [] := by
  induction h with
  | nil => simp [fillChars_nil]
  | char hc _ ih => simp [fillChars_cons_of_none (single?_of_ne hc _), ih, Ne.symm hc]
  | @single token after rs hlive _ ih =>
    obtain ⟨digits, i, rfl, hdigits, hi, hlimit, hlen⟩ := hlive
    have hne := ((index?_eq_some_iff hdigits).1 hi).ne_nil
    have hfill : (Piece.single digits).fill limit args = args[i].toList := by
      simp [Piece.fill, Piece.index?, hi, hlimit, hlen]
    rw [fillChars_single hne hdigits, hfill, List.mem_append, ih,
      or_iff_right (hargs _ (List.getElem_mem hlen))]
  | @range r after rs hr _ _ =>
    have hnone := single?_isToken hr after
    obtain ⟨plain, hplain, -⟩ := hr.isTokenText
    rw [hplain, List.cons_append] at hnone ⊢
    simp [fillChars_cons_of_none hnone]

/-- At a comma a composed text comes apart. -/
theorem of_comma {xs ys : List Char} (h : Composed limit args (xs ++ ',' :: ys) rs) :
    ∃ rs₁ rs₂, rs = rs₁ ++ rs₂ ∧ Composed limit args xs rs₁ ∧ Composed limit args ys rs₂ := by
  -- a placeholder at the head of the text ends before the comma
  have hhead {token after xs : List Char} (htoken : IsTokenText token)
      (heq : token ++ after = xs ++ ',' :: ys) :
      ∃ xs', xs = token ++ xs' ∧ after = xs' ++ ',' :: ys := by
    obtain ⟨plain, rfl, -, hcomma⟩ := htoken
    rcases List.append_eq_append_iff.1 heq with ⟨xs', hxs, hafter⟩ | ⟨rest, htoken, hafter⟩
    · exact ⟨xs', hxs, hafter⟩
    · cases rest with
      | nil => exact ⟨[], by simpa using htoken.symm, hafter.symm⟩
      | cons c rest =>
        obtain ⟨rfl, -⟩ := List.cons.inj hafter
        have hmem : ',' ∈ '$' :: plain := by simp [htoken]
        exact absurd hmem (by simpa using hcomma)
  generalize hcs : xs ++ ',' :: ys = cs at h
  induction h generalizing xs with
  | nil => exact absurd hcs (by simp)
  | @char c rest rs hc hrest ih =>
    cases xs with
    | nil =>
      obtain ⟨-, rfl⟩ := List.cons.inj hcs
      exact ⟨[], rs, rfl, .nil, hrest⟩
    | cons d xs =>
      obtain ⟨rfl, htail⟩ := List.cons.inj hcs
      obtain ⟨rs₁, rs₂, hrs, hxs, hys⟩ := ih htail
      exact ⟨rs₁, rs₂, hrs, .char hc hxs, hys⟩
  | single hlive hafter ih =>
    obtain ⟨xs', rfl, htail⟩ := hhead hlive.isTokenText hcs.symm
    obtain ⟨rs₁, rs₂, hrs, hxs, hys⟩ := ih htail.symm
    exact ⟨rs₁, rs₂, hrs, .single hlive hxs, hys⟩
  | @range r after rs hr hafter ih =>
    obtain ⟨xs', rfl, htail⟩ := hhead hr.isTokenText hcs.symm
    obtain ⟨rs₁, rs₂, rfl, hxs, hys⟩ := ih htail.symm
    exact ⟨r :: rs₁, rs₂, rfl, .range hr hxs, hys⟩

/-- The comma parts of a composed text are composed, and share its ranges among them. -/
theorem parts {parts : List (List Char)} (h : Composed limit args ([','].intercalate parts) rs) :
    rs = parts.flatMap rangesOf ∧ ∀ part ∈ parts, Composed limit args part (rangesOf part) := by
  induction parts generalizing rs with
  | nil =>
    obtain rfl := h.rangesOf_eq
    exact ⟨rangesOf_nil, by simp⟩
  | cons part rest ih =>
    cases rest with
    | nil =>
      rw [List.intercalate_singleton] at h
      obtain rfl := h.rangesOf_eq
      exact ⟨by simp, by simpa using h⟩
    | cons part' rest =>
      rw [List.intercalate_cons_cons, List.append_assoc, List.singleton_append] at h
      obtain ⟨rs₁, rs₂, rfl, hpart, hrest⟩ := h.of_comma
      obtain ⟨rfl, hparts⟩ := ih hrest
      obtain rfl := hpart.rangesOf_eq
      exact ⟨rfl, List.forall_mem_cons.2 ⟨hpart, hparts⟩⟩

theorem intercalate {parts : List (List Char)}
    (h : ∀ part ∈ parts, Composed limit args part (rangesOf part)) :
    Composed limit args ([','].intercalate parts) (parts.flatMap rangesOf) := by
  induction parts with
  | nil => exact .nil
  | cons part rest ih =>
    obtain ⟨hpart, hrest⟩ := List.forall_mem_cons.1 h
    cases rest with
    | nil => simpa using hpart
    | cons part' rest =>
      rw [List.intercalate_cons_cons, List.append_assoc, List.flatMap_cons]
      exact hpart.append (.char (by decide) (ih hrest))

theorem isToken (h : Composed limit args cs rs) {r : Range} (hr : r ∈ rs) : r.IsToken := by
  have hmem : r ∈ ranges (String.ofList cs) := by
    rwa [ranges, String.toList_ofList, h.rangesOf_eq]
  exact (mem_ranges_iff.1 hmem).1

/-- The first place where a range stands cuts a composed text into two. -/
theorem cut (h : Composed limit args cs rs) {r : Range} (hr : r ∈ rs) :
    ∃ before after rs₁ rs₂, Text.cutAround r.text cs = some (before, after) ∧
      Composed limit args before rs₁ ∧ Composed limit args after rs₂ ∧ rs = rs₁ ++ r :: rs₂ := by
  have htoken := h.isToken hr
  induction h with
  | nil => exact absurd hr List.not_mem_nil
  | @char c rest rs hc _ ih =>
    obtain ⟨before, after, rs₁, rs₂, hcut, hbefore, hafter, hrs⟩ := ih hr
    obtain ⟨plain, hplain, -⟩ := htoken.isTokenText
    refine ⟨c :: before, after, rs₁, rs₂, ?_, .char hc hbefore, hafter, hrs⟩
    rw [hplain] at hcut ⊢
    have hdollar : '$' ∉ [c] := by simpa using Ne.symm hc
    have hcons : c :: rest = [c] ++ rest := rfl
    rw [hcons, Text.cutAround_append_of_notMem hdollar, hcut]
    rfl
  | @single token rest rs hlive _ ih =>
    obtain ⟨before, after, rs₁, rs₂, hcut, hbefore, hafter, hrs⟩ := ih hr
    have hne : rangeAt? (token ++ rest) ≠ some r := by simp [rangeAt?_of_isLive hlive]
    refine ⟨token ++ before, after, rs₁, rs₂, ?_, .single hlive hbefore, hafter, hrs⟩
    rw [cutAround_append htoken hlive.isTokenText hne, hcut]
    rfl
  | @range r' rest rs hr' hrest ih =>
    by_cases heq : r = r'
    · subst heq
      obtain ⟨plain, hplain, -⟩ := htoken.isTokenText
      refine ⟨[], rest, [], rs, ?_, .nil, hrest, rfl⟩
      exact Text.cutAround_append (by simp [hplain]) rest
    · obtain ⟨before, after, rs₁, rs₂, hcut, hbefore, hafter, rfl⟩ :=
        ih ((List.mem_cons.1 hr).resolve_left heq)
      have hne : rangeAt? (r'.text ++ rest) ≠ some r := by
        rw [rangeAt?_isToken hr', ne_eq, Option.some.injEq]
        exact Ne.symm heq
      refine ⟨r'.text ++ before, after, r' :: rs₁, rs₂, ?_, .range hr' hbefore, hafter, rfl⟩
      rw [cutAround_append htoken hr'.isTokenText hne, hcut]
      rfl

theorem occursIn_iff (h : Composed limit args cs rs) {r : Range} (hr : r.IsToken) :
    Text.occursIn r.text cs = true ↔ r ∈ rs := by
  constructor
  · intro hoccurs
    obtain ⟨⟨before, after⟩, hcut⟩ := Option.isSome_iff_exists.1 hoccurs
    have hmem : r ∈ ranges (String.ofList cs) := by
      refine mem_ranges_iff.2 ⟨hr, before, after, ?_⟩
      rw [String.toList_ofList, Text.eq_of_cutAround hcut]
    rwa [ranges, String.toList_ofList, h.rangesOf_eq] at hmem
  · intro hmem
    obtain ⟨before, after, -, -, hcut, -⟩ := h.cut hmem
    rw [Text.occursIn, hcut]
    rfl

/-- A text without dollar signs in the place of a range takes one range away. -/
theorem replaceFirst (h : Composed limit args cs rs) {r : Range} (hr : r ∈ rs) {new : List Char}
    (hnew : '$' ∉ new) :
    ∃ rs', Composed limit args (Text.replaceFirst r.text new cs) rs' ∧
      rs'.length + 1 = rs.length := by
  obtain ⟨before, after, rs₁, rs₂, hcut, hbefore, hafter, rfl⟩ := h.cut hr
  refine ⟨rs₁ ++ rs₂, ?_, by simp; omega⟩
  rw [Text.replaceFirst, hcut]
  simpa using (hbefore.append (of_notMem hnew)).append hafter

end Composed

end Placeholder

end SectionCompiler
