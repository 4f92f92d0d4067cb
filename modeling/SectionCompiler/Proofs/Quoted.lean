import SectionCompiler.Ini.Line
import SectionCompiler.Proofs.Text

/-! Quoted texts. What is written in quotes is read back, it stands in one line, and its closing
quote is found whatever follows. Each comes from the three ways in which a single character is
written: a backslash and a letter, a number, or the character itself. -/

namespace SectionCompiler

namespace Text.Quoted

inductive Spelling (c : Char) : List Char → Prop where
  | letter (l : Char) (hl : ofLetter? l = some c) (hne : l ∉ ['u', '\n', '\r']) :
    Spelling c ['\\', l]
  | number (hc : c.toNat < 0x20) :
    Spelling c ['\\', 'u', '0', '0', hexDigit (c.toNat / 16), hexDigit (c.toNat % 16)]
  | itself (hq : c ≠ '"') (hb : c ≠ '\\') (hc : ¬ c.toNat < 0x20) : Spelling c [c]

theorem ofLetter?_of_letter? {c l : Char} (h : letter? c = some l) :
    ofLetter? l = some c ∧ l ∉ ['u', '\n', '\r'] := by
  unfold letter? at h
  split at h
  case h_8 => exact absurd h (by simp)
  all_goals
    obtain rfl := Option.some.inj h
    decide

theorem spelling_encodeChar (c : Char) : Spelling c (encodeChar c) := by
  unfold encodeChar
  cases hl : letter? c with
  | some l => exact .letter l (ofLetter?_of_letter? hl).1 (ofLetter?_of_letter? hl).2
  | none =>
    dsimp only
    split
    · next hc => exact .number hc
    · next hc =>
      refine .itself ?_ ?_ hc
      · rintro rfl
        exact absurd hl (by decide)
      · rintro rfl
        exact absurd hl (by decide)

theorem hexValue?_hexDigit : ∀ n < 16, hexValue? (hexDigit n) = some n := by decide

theorem hexDigit_not_mem : ∀ n < 16, hexDigit n ∉ ['\n', '\r', '"', '\\'] := by decide

variable {c : Char} {written : List Char}

theorem decodeBody_number (h : c.toNat < 0x20) (rest : List Char) :
    decodeBody ('\\' :: 'u' :: '0' :: '0' :: hexDigit (c.toNat / 16) ::
      hexDigit (c.toNat % 16) :: rest) = (decodeBody rest).map (c :: ·) := by
  have hhigh := hexValue?_hexDigit (c.toNat / 16) (by omega)
  have hlow := hexValue?_hexDigit (c.toNat % 16) (by omega)
  have hzero : hexValue? '0' = some 0 := by decide
  have hnumber : hex4? '0' '0' (hexDigit (c.toNat / 16)) (hexDigit (c.toNat % 16)) =
      some c.toNat := by
    simp only [hex4?, hhigh, hlow, hzero, Option.bind_eq_bind, Option.bind_some, Option.pure_def]
    congr 1
    omega
  have hs : isLowSurrogate c.toNat = false ∧ isHighSurrogate c.toNat = false := by
    simp only [isLowSurrogate, isHighSurrogate, Bool.and_eq_false_iff, decide_eq_false_iff_not]
    omega
  rw [decodeBody]
  simp only [hnumber, hs.1, hs.2, Bool.false_eq_true, if_false, Char.ofNat_toNat]

theorem Spelling.decodeBody_append (h : Spelling c written) (rest : List Char) :
    decodeBody (written ++ rest) = (decodeBody rest).map (c :: ·) := by
  cases h with
  | letter l hl hne =>
    have hu : l ≠ 'u' := fun he => hne (he ▸ List.mem_cons_self)
    rw [List.cons_append, List.singleton_append, decodeBody, hl]
    exact fun _ _ _ _ _ he _ => hu he
  | number hc => exact decodeBody_number hc rest
  | itself hq hb hc =>
    rw [List.singleton_append, decodeBody, if_neg (by simp [hq, hb, hc])]
    · exact fun he => absurd he hq
    · exact fun _ _ _ _ _ he => absurd he hb
    · exact fun _ _ he => absurd he hb

theorem decode_encode (cs : List Char) : decode (encode cs) = some cs := by
  rw [encode, decode]
  induction cs with
  | nil => rfl
  | cons c rest ih =>
    rw [List.flatMap_cons, List.append_assoc, (spelling_encodeChar c).decodeBody_append, ih]
    rfl

theorem Spelling.isLine (h : Spelling c written) : IsLine written := by
  cases h with
  | letter l hl hne =>
    obtain ⟨-, hn, hr, -⟩ : l ≠ 'u' ∧ l ≠ '\n' ∧ l ≠ '\r' ∧ True := by simpa using hne
    exact ⟨by simp [Ne.symm hn], by simp [Ne.symm hr]⟩
  | number hc =>
    have hhigh := hexDigit_not_mem (c.toNat / 16) (by omega)
    have hlow := hexDigit_not_mem (c.toNat % 16) (by omega)
    simp only [List.mem_cons, not_or] at hhigh hlow
    exact ⟨by simp [Ne.symm hhigh.1, Ne.symm hlow.1], by simp [Ne.symm hhigh.2.1, Ne.symm hlow.2.1]⟩
  | itself hq hb hc =>
    constructor <;>
    · intro hm
      obtain rfl := List.mem_singleton.1 hm
      exact hc (by decide)

theorem isLine_encode (cs : List Char) : IsLine (encode cs) := by
  have hbody (mark : Char) (hm : mark = '\n' ∨ mark = '\r') : mark ∉ cs.flatMap encodeChar := by
    intro h
    obtain ⟨c, -, hc⟩ := List.mem_flatMap.1 h
    rcases hm with rfl | rfl
    · exact (spelling_encodeChar c).isLine.1 hc
    · exact (spelling_encodeChar c).isLine.2 hc
  exact ⟨by simp [encode, hbody], by simp [encode, hbody]⟩

end Text.Quoted

namespace Ini

open Text Quoted

theorem cutAfterQuote_cons {c : Char} (hq : c ≠ '"') (hb : c ≠ '\\') (rest : List Char) :
    cutAfterQuote (c :: rest) = (cutAfterQuote rest).map fun (a, b) => (c :: a, b) := by
  rw [cutAfterQuote, if_neg hq]
  exact fun _ _ he => absurd he hb

theorem cutAfterQuote_append {c : Char} {written : List Char} (h : Spelling c written)
    (rest : List Char) : cutAfterQuote (written ++ rest) =
      (cutAfterQuote rest).map fun (a, b) => (written ++ a, b) := by
  cases h with
  | letter l hl hne => rfl
  | number hc =>
    have hhigh := hexDigit_not_mem (c.toNat / 16) (by omega)
    have hlow := hexDigit_not_mem (c.toNat % 16) (by omega)
    simp only [List.mem_cons, not_or] at hhigh hlow
    simp only [List.cons_append, List.nil_append]
    rw [cutAfterQuote, cutAfterQuote_cons (by decide) (by decide),
      cutAfterQuote_cons (by decide) (by decide), cutAfterQuote_cons hhigh.2.2.1 hhigh.2.2.2.1,
      cutAfterQuote_cons hlow.2.2.1 hlow.2.2.2.1]
    simp [Function.comp_def]
  | itself hq hb hc => exact cutAfterQuote_cons hq hb rest

theorem cutAfterQuote_encode (cs rest : List Char) :
    cutAfterQuote (cs.flatMap encodeChar ++ '"' :: rest) =
      some (cs.flatMap encodeChar ++ ['"'], rest) := by
  induction cs with
  | nil => rfl
  | cons c cs ih =>
    rw [List.flatMap_cons, List.append_assoc, cutAfterQuote_append (spelling_encodeChar c), ih]
    rw [Option.map_some, List.append_assoc]

end Ini

end SectionCompiler
