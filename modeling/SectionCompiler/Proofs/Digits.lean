import Mathlib.Data.List.TakeWhile
import SectionCompiler.Placeholder

/-! The forms of placeholders over a class of digits. A placeholder may be looked for with more
digits than the ten that spell numbers. Whichever they are, what is found at the head of a text is
told by the text alone: runs of digits between the signs of a placeholder, which are no digits. -/

namespace SectionCompiler.Placeholder

def rangeText (digits digits' : List Char) : List Char :=
  '$' :: '\x7b' :: (digits ++ '.' :: '.' :: '.' :: (digits' ++ ['}']))

/-- Characters that count as digits. Of the ASCII characters these are the ten digits; which others
there are is left open. -/
structure DigitClass where
  mem : Char → Bool
  mem_eq_isDigit : ∀ c : Char, c.toNat < 128 → mem c = c.isDigit

namespace DigitClass

def ten : DigitClass := ⟨Char.isDigit, fun _ _ => rfl⟩

variable (D : DigitClass)

def single? : List Char → Option (List Char × List Char)
  | '$' :: '\x7b' :: rest =>
    match rest.dropWhile D.mem with
    | '}' :: after =>
      if rest.takeWhile D.mem = [] then none else some (rest.takeWhile D.mem, after)
    | _ => none
  | _ => none

def range? : List Char → Option ((List Char × List Char) × List Char)
  | '$' :: '\x7b' :: rest =>
    match rest.dropWhile D.mem with
    | '.' :: '.' :: '.' :: rest' =>
      match rest'.dropWhile D.mem with
      | '}' :: after =>
        if rest.takeWhile D.mem = [] then none
        else some ((rest.takeWhile D.mem, rest'.takeWhile D.mem), after)
      | _ => none
    | _ => none
  | _ => none

theorem single?_ten : single? ten = Placeholder.single? := rfl

theorem range?_ten : range? ten = Placeholder.range? := rfl

variable {D : DigitClass}

theorem mem_of_isDigit {c : Char} (h : c.isDigit) : D.mem c := by
  rw [D.mem_eq_isDigit c, h]
  have hle : c.toNat ≤ '9'.toNat := by
    simp only [Char.isDigit, Bool.and_eq_true, decide_eq_true_eq] at h
    exact h.2
  exact hle.trans_lt (by decide)

theorem takeWhile_cons_of_not_mem {c : Char} (h : D.mem c = false) (cs : List Char) :
    (c :: cs).takeWhile D.mem = [] := List.takeWhile_cons_of_neg (by simp [h])

theorem dropWhile_cons_of_not_mem {c : Char} (h : D.mem c = false) (cs : List Char) :
    (c :: cs).dropWhile D.mem = c :: cs := List.dropWhile_cons_of_neg (by simp [h])

theorem close_not_mem : D.mem '}' = false := D.mem_eq_isDigit '}' (by decide)

theorem dot_not_mem : D.mem '.' = false := D.mem_eq_isDigit '.' (by decide)

theorem dollar_notMem {digits : List Char} (h : ∀ d ∈ digits, D.mem d) : '$' ∉ digits := by
  intro hm
  have hdollar := h '$' hm
  rw [D.mem_eq_isDigit '$' (by decide)] at hdollar
  exact absurd hdollar (by decide)

theorem single?_eq_some_iff {cs digits after : List Char} :
    D.single? cs = some (digits, after) ↔
      (digits ≠ [] ∧ ∀ d ∈ digits, D.mem d) ∧ cs = (Piece.single digits).source ++ after := by
  constructor
  · intro h
    unfold single? at h
    split at h
    · next rest =>
      split at h
      · next a heq =>
        split at h
        · exact absurd h (by simp)
        · next hne =>
          obtain ⟨rfl, rfl⟩ := Prod.mk.inj (Option.some.inj h)
          refine ⟨⟨hne, fun d hd => List.mem_takeWhile_imp hd⟩, ?_⟩
          have hrest := List.takeWhile_append_dropWhile (p := D.mem) (l := rest)
          rw [heq] at hrest
          simp [Piece.source, hrest]
      · exact absurd h (by simp)
    · exact absurd h (by simp)
  · rintro ⟨⟨hne, hdigits⟩, rfl⟩
    simp [Piece.source, single?, List.dropWhile_append_of_pos hdigits,
      List.takeWhile_append_of_pos hdigits, dropWhile_cons_of_not_mem close_not_mem,
      takeWhile_cons_of_not_mem close_not_mem, hne]

theorem range?_eq_some_iff {cs digits digits' after : List Char} :
    D.range? cs = some ((digits, digits'), after) ↔
      (digits ≠ [] ∧ ∀ d ∈ digits, D.mem d) ∧ (∀ d ∈ digits', D.mem d) ∧
        cs = rangeText digits digits' ++ after := by
  constructor
  · intro h
    unfold range? at h
    split at h
    · next rest =>
      split at h
      · next rest' heq =>
        split at h
        · next a heq' =>
          split at h
          · exact absurd h (by simp)
          · next hne =>
            obtain ⟨hdigits, rfl⟩ := Prod.mk.inj (Option.some.inj h)
            obtain ⟨rfl, rfl⟩ := Prod.mk.inj hdigits
            refine ⟨⟨hne, fun d hd => List.mem_takeWhile_imp hd⟩,
              fun d hd => List.mem_takeWhile_imp hd, ?_⟩
            have hrest := List.takeWhile_append_dropWhile (p := D.mem) (l := rest)
            have hrest' := List.takeWhile_append_dropWhile (p := D.mem) (l := rest')
            rw [heq] at hrest
            rw [heq'] at hrest'
            simp [rangeText, hrest, hrest']
        · exact absurd h (by simp)
      · exact absurd h (by simp)
    · exact absurd h (by simp)
  · rintro ⟨⟨hne, hdigits⟩, hdigits', rfl⟩
    simp [rangeText, range?, List.dropWhile_append_of_pos hdigits,
      List.takeWhile_append_of_pos hdigits, List.dropWhile_append_of_pos hdigits',
      List.takeWhile_append_of_pos hdigits', dropWhile_cons_of_not_mem dot_not_mem,
      takeWhile_cons_of_not_mem dot_not_mem, dropWhile_cons_of_not_mem close_not_mem,
      takeWhile_cons_of_not_mem close_not_mem, hne]

end DigitClass

end SectionCompiler.Placeholder
