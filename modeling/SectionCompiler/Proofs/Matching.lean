import SectionCompiler.Proofs.Occurrence

/-! Searching a text for placeholders with any class of digits. A pattern is searched for from left
to right, and after a match behind it. A match with a digit that spells no number is then left out,
and a match holds one dollar sign alone, so no placeholder is lost to it: whatever the class of
digits is, the search finds and fills the same placeholders. -/

namespace SectionCompiler.Placeholder

/-- What is searched for in a text. A match begins with a dollar sign and has no second one. -/
structure Pattern (α : Type) where
  head? : List Char → Option (α × List Char)
  begins : ∀ {cs a after}, head? cs = some (a, after) →
    ∃ plain, cs = '$' :: (plain ++ after) ∧ '$' ∉ plain

namespace Pattern

variable {α β : Type} (p : Pattern α)

theorem length_lt {p : Pattern α} {cs after : List Char} {a : α}
    (h : p.head? cs = some (a, after)) : after.length < cs.length := by
  obtain ⟨plain, rfl, -⟩ := p.begins h
  simp only [List.length_cons, List.length_append]
  omega

/-- Cuts a text, left to right, into the matches of a pattern and the characters between them. -/
def cut (cs : List Char) : List (Char ⊕ α) :=
  match _h : p.head? cs with
  | some (a, after) => .inr a :: cut after
  | none =>
    match cs with
    | [] => []
    | c :: rest => .inl c :: cut rest
termination_by cs.length
decreasing_by
  · exact length_lt _h
  · exact Nat.lt_succ_self _

/-- What the matches of a pattern in a text stand for, left to right. -/
def listed (value? : α → Option β) (cs : List Char) : List β :=
  (p.cut cs).filterMap (Sum.elim (fun _ => none) value?)

def replaced (text : α → List Char) (cs : List Char) : List Char :=
  (p.cut cs).flatMap (Sum.elim ([·]) text)

variable {p}

theorem cut_of_some {cs after : List Char} {a : α} (h : p.head? cs = some (a, after)) :
    p.cut cs = .inr a :: p.cut after := by
  rw [cut]
  split
  · next h' =>
    rw [h] at h'
    obtain ⟨rfl, rfl⟩ := Prod.mk.inj (Option.some.inj h')
    rfl
  · next h' => exact absurd h (by simp [h'])

theorem cut_cons_of_none {c : Char} {rest : List Char} (h : p.head? (c :: rest) = none) :
    p.cut (c :: rest) = .inl c :: p.cut rest := by
  rw [cut]
  split
  · next h' => exact absurd h' (by simp [h])
  · rfl

theorem cut_nil : p.cut [] = [] := by
  rw [cut]
  split
  · next h' =>
    obtain ⟨plain, h, -⟩ := p.begins h'
    cases h
  · rfl

theorem replaced_of_some {text : α → List Char} {cs after : List Char} {a : α}
    (h : p.head? cs = some (a, after)) :
    p.replaced text cs = text a ++ p.replaced text after := by
  rw [replaced, cut_of_some h, List.flatMap_cons]
  rfl

theorem replaced_cons_of_none {text : α → List Char} {c : Char} {rest : List Char}
    (h : p.head? (c :: rest) = none) :
    p.replaced text (c :: rest) = c :: p.replaced text rest := by
  rw [replaced, cut_cons_of_none h, List.flatMap_cons]
  rfl

theorem replaced_nil {text : α → List Char} : p.replaced text [] = [] := by
  rw [replaced, cut_nil, List.flatMap_nil]

/-- The search finds what stands at the places of the text. -/
theorem listed_eq (value? : α → Option β) (cs : List Char) :
    p.listed value? cs =
      cs.tails.filterMap fun cs => (p.head? cs).bind fun found => value? found.1 := by
  have hnone (cs : List Char) (h : ∀ plain, cs ≠ '$' :: plain) : p.head? cs = none := by
    refine Option.eq_none_iff_forall_ne_some.2 fun found hfound => ?_
    obtain ⟨plain, hcs, -⟩ := p.begins hfound
    exact h _ hcs
  apply scan_eq_filterMap_tails (p.listed value?)
  · intro c rest hc
    rw [hnone _ fun plain heq => hc (List.cons.inj heq).1]
    rfl
  · rw [listed, cut_nil, List.filterMap_nil]
  · rw [hnone [] fun _ => List.cons_ne_nil _ _ ∘ Eq.symm]
    rfl
  · intro c rest
    cases hfound : p.head? (c :: rest) with
    | some found =>
      obtain ⟨a, after⟩ := found
      obtain ⟨plain, heq, hplain⟩ := p.begins hfound
      refine ⟨plain, after, (List.cons.inj heq).2, hplain, ?_⟩
      rw [listed, cut_of_some hfound, List.filterMap_cons, Sum.elim_inr, Option.bind_some, listed]
      cases value? a <;> rfl
    | none =>
      refine ⟨[], rest, rfl, List.not_mem_nil, ?_⟩
      rw [listed, cut_cons_of_none hfound]
      rfl

end Pattern

/-- The index that a run of digits spells. Only the ten digits spell one. -/
def numeral? (digits : List Char) : Option Nat :=
  if digits.all Char.isDigit then index? digits else none

def numerals? (digits : List Char × List Char) : Option Range :=
  if digits.1.all Char.isDigit ∧ digits.2.all Char.isDigit then rangeOf? digits else none

/-- What is put in the place of a single placeholder: the argument of its index, when the index is
below the limit and has an argument, and else the placeholder again. -/
def substitute (limit : Nat) (args : List String) (digits : List Char) : List Char :=
  match ((numeral? digits).filter (· < limit)).bind (args[·]?) with
  | some arg => arg.toList
  | none => (Piece.single digits).source

theorem substitute_eq_fill {digits : List Char} (h : ∀ d ∈ digits, d.isDigit)
    (limit : Nat) (args : List String) :
    substitute limit args digits = (Piece.single digits).fill limit args := by
  rw [substitute, numeral?, if_pos (List.all_eq_true.2 h), Piece.fill, Piece.index?]
  cases index? digits with
  | none => rfl
  | some i =>
    by_cases hlimit : i < limit
    · cases harg : args[i]? <;> simp [hlimit, harg, Option.filter]
    · simp [hlimit, Option.filter]

theorem substitute_of_not_isDigit {digits : List Char} (h : ¬ ∀ d ∈ digits, d.isDigit)
    (limit : Nat) (args : List String) :
    substitute limit args digits = (Piece.single digits).source := by
  rw [substitute, numeral?, if_neg (mt List.all_eq_true.1 h)]
  rfl

namespace DigitClass

variable (D : DigitClass)

def single : Pattern (List Char) where
  head? := D.single?
  begins := by
    intro cs digits after h
    obtain ⟨⟨-, hdigits⟩, rfl⟩ := single?_eq_some_iff.1 h
    refine ⟨'\x7b' :: (digits ++ ['}']), rfl, ?_⟩
    simpa using dollar_notMem hdigits

def range : Pattern (List Char × List Char) where
  head? := D.range?
  begins := by
    rintro cs ⟨digits, digits'⟩ after h
    obtain ⟨⟨-, hdigits⟩, hdigits', rfl⟩ := range?_eq_some_iff.1 h
    refine ⟨'\x7b' :: (digits ++ '.' :: '.' :: '.' :: (digits' ++ ['}'])), rfl, ?_⟩
    simpa using ⟨dollar_notMem hdigits, dollar_notMem hdigits'⟩

/-- The singles of a text when placeholders are searched for with the digits of the class. -/
def singles (text : String) : List Nat := D.single.listed numeral? text.toList

def ranges (text : String) : List Range := D.range.listed numerals? text.toList

def fill (limit : Nat) (args : List String) (text : String) : String :=
  String.ofList (D.single.replaced (substitute limit args) text.toList)

variable {D}

/-- A placeholder is a match that has only the ten digits. -/
theorem single?_iff {cs digits after : List Char} :
    Placeholder.single? cs = some (digits, after) ↔
      D.single? cs = some (digits, after) ∧ ∀ d ∈ digits, d.isDigit := by
  rw [Placeholder.single?_eq_some_iff, single?_eq_some_iff]
  constructor
  · rintro ⟨⟨hne, hten⟩, rfl⟩
    exact ⟨⟨⟨hne, fun d hd => mem_of_isDigit (hten d hd)⟩, rfl⟩, hten⟩
  · rintro ⟨⟨⟨hne, -⟩, rfl⟩, hten⟩
    exact ⟨⟨hne, hten⟩, rfl⟩

theorem range?_iff {cs digits digits' after : List Char} :
    Placeholder.range? cs = some ((digits, digits'), after) ↔
      D.range? cs = some ((digits, digits'), after) ∧
        (∀ d ∈ digits, d.isDigit) ∧ ∀ d ∈ digits', d.isDigit := by
  rw [Placeholder.range?_eq_some_iff, range?_eq_some_iff]
  constructor
  · rintro ⟨⟨hne, hten⟩, hten', rfl⟩
    exact ⟨⟨⟨hne, fun d hd => mem_of_isDigit (hten d hd)⟩,
      fun d hd => mem_of_isDigit (hten' d hd), rfl⟩, hten, hten'⟩
  · rintro ⟨⟨⟨hne, -⟩, -, rfl⟩, hten, hten'⟩
    exact ⟨⟨hne, hten⟩, hten', rfl⟩

theorem single_bind_numeral? (cs : List Char) :
    (D.single.head? cs).bind (fun found => numeral? found.1) = singleAt? cs := by
  refine Option.ext fun i => ?_
  simp only [singleAt?, Option.bind_eq_some_iff, Prod.exists, @single?_iff D, numeral?,
    List.all_eq_true, Option.ite_none_right_eq_some, and_assoc]
  rfl

theorem range_bind_numerals? (cs : List Char) :
    (D.range.head? cs).bind (fun found => numerals? found.1) = rangeAt? cs := by
  refine Option.ext fun r => ?_
  simp only [rangeAt?, Option.bind_eq_some_iff, Prod.exists, @range?_iff D, numerals?,
    List.all_eq_true, Option.ite_none_right_eq_some, and_assoc]
  rfl

theorem singles_eq (text : String) : D.singles text = Placeholder.singles text := by
  rw [singles, Pattern.listed_eq, Placeholder.singles, filterMap_index?_pieces]
  exact congrArg (List.filterMap · _) (funext single_bind_numeral?)

theorem ranges_eq (text : String) : D.ranges text = Placeholder.ranges text := by
  rw [ranges, Pattern.listed_eq, Placeholder.ranges, rangesOf_eq]
  exact congrArg (List.filterMap · _) (funext range_bind_numerals?)

/-- A match that is no placeholder is copied: behind its dollar sign no other one stands in it. -/
theorem fillChars_of_not_isDigit {digits after : List Char}
    (hfound : D.single? ((Piece.single digits).source ++ after) = some (digits, after))
    (hten : ¬ ∀ d ∈ digits, d.isDigit) (limit : Nat) (args : List String) :
    fillChars limit args ((Piece.single digits).source ++ after) =
      (Piece.single digits).source ++ fillChars limit args after := by
  have hnone : Placeholder.single? ('$' :: (('\x7b' :: (digits ++ ['}'])) ++ after)) = none := by
    refine Option.eq_none_iff_forall_ne_some.2 fun ⟨digits', after'⟩ hfound' => hten ?_
    obtain ⟨hwide, hall⟩ := single?_iff.1 hfound'
    obtain ⟨rfl, -⟩ := Prod.mk.inj (Option.some.inj (hwide.symm.trans hfound))
    exact hall
  have hplain : '$' ∉ '\x7b' :: (digits ++ ['}']) := by
    simpa using dollar_notMem (single?_eq_some_iff.1 hfound).1.2
  calc
    fillChars limit args ('$' :: (('\x7b' :: (digits ++ ['}'])) ++ after))
    _ = '$' :: fillChars limit args (('\x7b' :: (digits ++ ['}'])) ++ after) :=
      fillChars_cons_of_none hnone
    _ = '$' :: (('\x7b' :: (digits ++ ['}'])) ++ fillChars limit args after) := by
      rw [fillChars_append_of_not_mem hplain]

theorem replaced_eq (limit : Nat) (args : List String) (cs : List Char) :
    D.single.replaced (substitute limit args) cs = fillChars limit args cs := by
  induction hn : cs.length using Nat.strongRecOn generalizing cs with
  | _ n ih =>
    subst hn
    cases hfound : D.single.head? cs with
    | some found =>
      obtain ⟨digits, after⟩ := found
      rw [Pattern.replaced_of_some hfound, ih _ (Pattern.length_lt hfound) after rfl]
      obtain ⟨⟨hne, -⟩, rfl⟩ := single?_eq_some_iff.1 hfound
      by_cases hten : ∀ d ∈ digits, d.isDigit
      · rw [fillChars_single hne hten, substitute_eq_fill hten]
      · rw [fillChars_of_not_isDigit hfound hten, substitute_of_not_isDigit hten]
    | none =>
      have hnone : Placeholder.single? cs = none := by
        refine Option.eq_none_iff_forall_ne_some.2 fun ⟨digits, after⟩ hfound' => ?_
        exact absurd ((single?_iff.1 hfound').1.symm.trans hfound) nofun
      cases cs with
      | nil => rw [Pattern.replaced_nil, fillChars_nil]
      | cons c rest =>
        rw [Pattern.replaced_cons_of_none hfound, fillChars_cons_of_none hnone,
          ih _ (Nat.lt_succ_self _) rest rfl]

theorem fill_eq (limit : Nat) (args : List String) (text : String) :
    D.fill limit args text = Placeholder.fill limit args text := by
  rw [fill, replaced_eq]
  rfl

end DigitClass

end SectionCompiler.Placeholder
