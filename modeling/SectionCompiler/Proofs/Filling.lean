import SectionCompiler.Proofs.Digits

/-! Putting arguments in for the single placeholders of a text. A placeholder is live when there is
an argument for it, and filling copies all that is not part of a live placeholder. So filling goes
past a piece of text that touches no live placeholder, and the texts before and after it are filled
on their own. -/

namespace SectionCompiler.Placeholder

theorem single?_eq_some_iff {cs digits after : List Char} :
    single? cs = some (digits, after) ↔
      (digits ≠ [] ∧ ∀ d ∈ digits, d.isDigit) ∧ cs = (Piece.single digits).source ++ after := by
  rw [← DigitClass.single?_ten]
  exact DigitClass.single?_eq_some_iff

theorem pieces_of_single {cs digits after : List Char} (h : single? cs = some (digits, after)) :
    pieces cs = .single digits :: pieces after := by
  rw [pieces]
  split
  · next h' =>
    rw [h] at h'
    obtain ⟨rfl, rfl⟩ := Prod.mk.inj (Option.some.inj h')
    rfl
  · next h' => exact absurd h (by simp [h'])

theorem pieces_cons {c : Char} {rest : List Char} (h : single? (c :: rest) = none) :
    pieces (c :: rest) = .char c :: pieces rest := by
  rw [pieces]
  split
  · next h' => exact absurd h' (by simp [h])
  · rfl

theorem pieces_nil : pieces [] = [] := by
  rw [pieces]
  rfl

theorem flatMap_source_pieces (cs : List Char) : (pieces cs).flatMap Piece.source = cs := by
  induction hn : cs.length using Nat.strongRecOn generalizing cs with
  | _ n ih =>
    subst hn
    cases hs : single? cs with
    | some found =>
      obtain ⟨digits, after⟩ := found
      rw [pieces_of_single hs, List.flatMap_cons, ih _ (length_of_single? hs) _ rfl]
      exact (single?_eq_some_iff.1 hs).2.symm
    | none =>
      cases cs with
      | nil => rw [pieces_nil, List.flatMap_nil]
      | cons c rest =>
        rw [pieces_cons hs, List.flatMap_cons, ih _ (Nat.lt_succ_self _) _ rfl]
        rfl

theorem mem_of_mem_source {p : Piece} {cs : List Char} {c : Char} (hp : p ∈ pieces cs)
    (hc : c ∈ p.source) : c ∈ cs := by
  rw [← flatMap_source_pieces cs]
  exact List.mem_flatMap.2 ⟨p, hp, hc⟩

def fillChars (limit : Nat) (args : List String) (cs : List Char) : List Char :=
  (pieces cs).flatMap (Piece.fill limit args)

variable {limit : Nat} {args : List String}

theorem toList_fill (text : String) :
    (fill limit args text).toList = fillChars limit args text.toList :=
  String.toList_ofList

/-- The text of a placeholder for which there is an argument below the limit. -/
def IsLive (limit : Nat) (args : List String) (token : List Char) : Prop :=
  ∃ digits i, token = (Piece.single digits).source ∧ (∀ d ∈ digits, d.isDigit) ∧
    index? digits = some i ∧ i < limit ∧ i < args.length

theorem fillChars_nil : fillChars limit args [] = [] := by
  rw [fillChars, pieces_nil, List.flatMap_nil]

theorem fillChars_single {digits : List Char} (hne : digits ≠ []) (h : ∀ d ∈ digits, d.isDigit)
    (after : List Char) :
    fillChars limit args ((Piece.single digits).source ++ after) =
      (Piece.single digits).fill limit args ++ fillChars limit args after := by
  rw [fillChars, pieces_of_single (single?_eq_some_iff.2 ⟨⟨hne, h⟩, rfl⟩), List.flatMap_cons]
  rfl

theorem fillChars_cons_of_none {c : Char} {rest : List Char} (h : single? (c :: rest) = none) :
    fillChars limit args (c :: rest) = c :: fillChars limit args rest := by
  rw [fillChars, pieces_cons h, List.flatMap_cons]
  rfl

theorem single?_of_ne {c : Char} (h : c ≠ '$') (rest : List Char) : single? (c :: rest) = none := by
  unfold single?
  split
  · next heq => exact absurd (List.cons.inj heq).1 h
  · rfl

theorem fillChars_append_of_not_mem {xs : List Char} (h : '$' ∉ xs) (ys : List Char) :
    fillChars limit args (xs ++ ys) = xs ++ fillChars limit args ys := by
  induction xs with
  | nil => rfl
  | cons c rest ih =>
    obtain ⟨hc, hrest⟩ := List.ne_and_not_mem_of_not_mem_cons h
    rw [List.cons_append, fillChars_cons_of_none (single?_of_ne (Ne.symm hc) _), ih hrest,
      List.cons_append]

theorem fill_single_of_not_isLive {digits : List Char} (h : ∀ d ∈ digits, d.isDigit)
    (hlive : ¬ IsLive limit args (Piece.single digits).source) :
    (Piece.single digits).fill limit args = (Piece.single digits).source := by
  unfold Piece.fill
  split
  · next i hi =>
    split
    · next hlimit =>
      have hlen : ¬ i < args.length := fun hlen => hlive ⟨digits, i, rfl, h, hi, hlimit, hlen⟩
      rw [List.getElem?_eq_none (Nat.le_of_not_lt hlen)]
    · rfl
  · rfl

/-- No live placeholder stands at the beginning of a text. -/
def Fresh (limit : Nat) (args : List String) (cs : List Char) : Prop :=
  ∀ token after, IsLive limit args token → cs ≠ token ++ after

theorem fillChars_cons {c : Char} {rest : List Char} (h : Fresh limit args (c :: rest)) :
    fillChars limit args (c :: rest) = c :: fillChars limit args rest := by
  cases hs : single? (c :: rest) with
  | none => exact fillChars_cons_of_none hs
  | some found =>
    obtain ⟨digits, after⟩ := found
    obtain ⟨⟨hne, hdigits⟩, heq⟩ := single?_eq_some_iff.1 hs
    have hlive : ¬ IsLive limit args (Piece.single digits).source := fun hl => h _ after hl heq
    rw [heq, fillChars_single hne hdigits, fill_single_of_not_isLive hdigits hlive]
    -- after its dollar sign the placeholder is read on as ordinary text
    obtain ⟨rfl, rfl⟩ := List.cons.inj heq
    have hplain : '$' ∉ '\x7b' :: (digits ++ ['}']) := by
      intro hm
      have : '$' ∈ digits := by simpa using hm
      exact absurd (hdigits _ this) (by decide)
    change _ = '$' :: fillChars limit args (('\x7b' :: (digits ++ ['}'])) ++ after)
    rw [fillChars_append_of_not_mem hplain]
    rfl

theorem IsLive.length_pos {token : List Char} (h : IsLive limit args token) :
    0 < token.length := by
  obtain ⟨digits, i, rfl, -⟩ := h
  exact Nat.succ_pos _

theorem IsLive.fillChars_append {token : List Char} (h : IsLive limit args token)
    (after : List Char) :
    fillChars limit args (token ++ after) =
      fillChars limit args token ++ fillChars limit args after := by
  obtain ⟨digits, i, rfl, hdigits, hi, -⟩ := h
  have hne : digits ≠ [] := by
    rintro rfl
    exact absurd hi (by simp [index?])
  have htoken : fillChars limit args (Piece.single digits).source =
      (Piece.single digits).fill limit args := by
    rw [← List.append_nil (Piece.source _), fillChars_single hne hdigits, fillChars_nil,
      List.append_nil]
  rw [fillChars_single hne hdigits, htoken]

/-- No live placeholder reaches from one text into the one after it. -/
def Parted (limit : Nat) (args : List String) (xs ys : List Char) : Prop :=
  ∀ u token v, xs ++ ys = u ++ token ++ v → IsLive limit args token →
    (u ++ token).length ≤ xs.length ∨ xs.length ≤ u.length

theorem Parted.of_append {xs xs' ys : List Char} (h : Parted limit args (xs ++ xs') ys) :
    Parted limit args xs' ys := by
  intro u token v huv hlive
  have hparted := h (xs ++ u) token v (by simp [huv]) hlive
  simp only [List.length_append] at hparted ⊢
  omega

/-- A live placeholder at the beginning of parted texts lies in the first of them. -/
theorem Parted.fresh_append {xs ys : List Char} (h : Parted limit args xs ys) (hxs : xs ≠ [])
    (hfresh : Fresh limit args xs) : Fresh limit args (xs ++ ys) := by
  intro token after hlive heq
  rcases h [] token after heq hlive with hle | hle
  · obtain ⟨tail, htail⟩ := List.prefix_of_prefix_length_le ⟨after, heq.symm⟩
      (List.prefix_append xs ys) hle
    exact hfresh token tail hlive htail.symm
  · exact hxs (List.length_eq_zero_iff.1 (Nat.le_zero.1 hle))

theorem Parted.fillChars_append {xs ys : List Char} (h : Parted limit args xs ys) :
    fillChars limit args (xs ++ ys) = fillChars limit args xs ++ fillChars limit args ys := by
  induction hn : xs.length using Nat.strongRecOn generalizing xs with
  | _ n ih =>
    subst hn
    cases xs with
    | nil => rw [fillChars_nil, List.nil_append, List.nil_append]
    | cons c rest =>
      by_cases hbegin : ∃ token after, IsLive limit args token ∧ c :: rest = token ++ after
      · obtain ⟨token, after, hlive, heq⟩ := hbegin
        have hlen : after.length < (c :: rest).length := by
          have hpos := hlive.length_pos
          rw [heq, List.length_append]
          omega
        rw [heq] at h ⊢
        rw [List.append_assoc, hlive.fillChars_append, hlive.fillChars_append,
          ih after.length hlen h.of_append rfl, List.append_assoc]
      · have hfresh : Fresh limit args (c :: rest) :=
          fun token after hlive heq => hbegin ⟨token, after, hlive, heq⟩
        have hall := h.fresh_append (List.cons_ne_nil c rest) hfresh
        have hrest : Parted limit args rest ys :=
          (show Parted limit args ([c] ++ rest) ys from h).of_append
        rw [List.cons_append] at hall ⊢
        rw [fillChars_cons hall, fillChars_cons hfresh, ih rest.length (by simp) hrest rfl,
          List.cons_append]

/-- A text at none of whose characters a live placeholder begins is copied. -/
theorem fillChars_append_of_fresh {xs ys : List Char}
    (h : ∀ u token v, xs ++ ys = u ++ token ++ v → IsLive limit args token →
      xs.length ≤ u.length) :
    fillChars limit args (xs ++ ys) = xs ++ fillChars limit args ys := by
  induction xs with
  | nil => rfl
  | cons c rest ih =>
    have hfresh : Fresh limit args (c :: (rest ++ ys)) := by
      intro token after hlive heq
      exact absurd (h [] token after heq hlive) (by simp)
    have hrest : ∀ u token v, rest ++ ys = u ++ token ++ v → IsLive limit args token →
        rest.length ≤ u.length := by
      intro u token v huv hlive
      simpa using h (c :: u) token v (by simp [huv]) hlive
    rw [List.cons_append, fillChars_cons hfresh, ih hrest, List.cons_append]

def IsSyntax (c : Char) : Prop := c ∈ ['$', '\x7b', '}'] ∨ c.isDigit

instance (c : Char) : Decidable (IsSyntax c) := inferInstanceAs (Decidable (_ ∨ _))

theorem IsLive.isSyntax {token : List Char} (h : IsLive limit args token) {c : Char}
    (hc : c ∈ token) : IsSyntax c := by
  obtain ⟨digits, i, rfl, hdigits, -⟩ := h
  simp only [Piece.source, List.mem_cons, List.mem_append, List.not_mem_nil, or_false] at hc
  rcases hc with rfl | rfl | hc | rfl
  · exact Or.inl (by decide)
  · exact Or.inl (by decide)
  · exact Or.inr (hdigits c hc)
  · exact Or.inl (by decide)

structure Insertion where
  before : List Char
  inner : List Char
  after : List Char
  deriving DecidableEq, Repr

namespace Insertion

def text (i : Insertion) : List Char := i.before ++ i.inner ++ i.after

/-- Each live placeholder of the whole lies in the text before the insertion or in the text after
it. -/
def Untouched (limit : Nat) (args : List String) (i : Insertion) : Prop :=
  ∀ u token v, i.text = u ++ token ++ v → IsLive limit args token →
    (u ++ token).length ≤ i.before.length ∨ (i.before ++ i.inner).length ≤ u.length

theorem Untouched.fillChars_text {i : Insertion} (h : i.Untouched limit args) :
    fillChars limit args i.text =
      fillChars limit args i.before ++ i.inner ++ fillChars limit args i.after := by
  have hparted : Parted limit args i.before (i.inner ++ i.after) := by
    intro u token v huv hlive
    have := h u token v (by rw [text, List.append_assoc, huv]) hlive
    simp only [List.length_append] at this ⊢
    omega
  have hfresh : ∀ u token v, i.inner ++ i.after = u ++ token ++ v → IsLive limit args token →
      i.inner.length ≤ u.length := by
    intro u token v huv hlive
    have hpos := hlive.length_pos
    have := h (i.before ++ u) token v (by simp [text, huv]) hlive
    simp only [List.length_append] at this
    omega
  rw [text, List.append_assoc, hparted.fillChars_append, fillChars_append_of_fresh hfresh,
    List.append_assoc]

/-- Text that cannot stand in a placeholder touches none, wherever it is put. -/
theorem untouched_of_not_isSyntax {i : Insertion} (hne : i.inner ≠ [])
    (h : ∀ c ∈ i.inner, ¬ IsSyntax c) : i.Untouched limit args := by
  intro u token v huv hlive
  by_contra hcross
  simp only [List.length_append] at hcross
  have hinner := List.length_pos_iff.2 hne
  have htoken := hlive.length_pos
  -- the insertion and the placeholder would share the first character that lies in both
  have hleft : i.text[max u.length i.before.length]? =
      i.inner[max u.length i.before.length - i.before.length]? := by
    rw [text, List.getElem?_append_left (by simp only [List.length_append]; omega),
      List.getElem?_append_right (by omega)]
  have hright : i.text[max u.length i.before.length]? =
      token[max u.length i.before.length - u.length]? := by
    rw [huv, List.getElem?_append_left (by simp only [List.length_append]; omega),
      List.getElem?_append_right (by omega)]
  have hbound : max u.length i.before.length - u.length < token.length := by omega
  rw [hleft, List.getElem?_eq_getElem hbound] at hright
  exact h _ (List.mem_of_getElem? hright) (hlive.isSyntax (List.getElem_mem hbound))

end Insertion

end SectionCompiler.Placeholder
