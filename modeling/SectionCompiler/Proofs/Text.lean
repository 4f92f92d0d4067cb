import Mathlib.Data.List.TakeWhile
import SectionCompiler.Text.Blank
import SectionCompiler.Text.Lines
import SectionCompiler.Text.Search

/-! Cutting and trimming of texts. A cut undoes the joining of two texts by a character that is not
in the first, and trimming leaves a text alone exactly when neither of its ends is blank. A line
that was written with its end is read back, and whole lines are read one by one. -/

namespace SectionCompiler.Text

theorem cutAt_append {mark : Char} {before : List Char} (after : List Char) (h : mark ∉ before) :
    cutAt mark (before ++ mark :: after) = some (before, after) := by
  induction before with
  | nil => simp [cutAt]
  | cons c rest ih =>
    obtain ⟨hc, hr⟩ := List.ne_and_not_mem_of_not_mem_cons h
    simp [cutAt, Ne.symm hc, ih hr]

theorem cutAt_eq_some {mark : Char} {cs before after : List Char}
    (h : cutAt mark cs = some (before, after)) : mark ∉ before ∧ cs = before ++ mark :: after := by
  induction cs generalizing before with
  | nil => simp [cutAt] at h
  | cons c rest ih =>
    simp only [cutAt] at h
    split at h
    · next hc =>
      obtain ⟨rfl, rfl⟩ := Prod.mk.inj (Option.some.inj h)
      exact ⟨List.not_mem_nil, by rw [hc, List.nil_append]⟩
    · next hc =>
      obtain ⟨⟨b, a⟩, hr, he⟩ := Option.map_eq_some_iff.1 h
      obtain ⟨rfl, rfl⟩ := Prod.mk.inj he
      obtain ⟨hb, rfl⟩ := ih hr
      exact ⟨by simp [hb, Ne.symm hc], rfl⟩

theorem cutAt_append_right {mark : Char} {cs before after : List Char}
    (h : cutAt mark cs = some (before, after)) (more : List Char) :
    cutAt mark (cs ++ more) = some (before, after ++ more) := by
  obtain ⟨hbefore, rfl⟩ := cutAt_eq_some h
  rw [List.append_assoc, List.cons_append, cutAt_append _ hbefore]

theorem mem_of_mem_trim {c : Char} {cs : List Char} (h : c ∈ trim cs) : c ∈ cs := by
  rw [trim, trimEnd, List.mem_reverse] at h
  have hs := (List.dropWhile_suffix isBlank).subset h
  exact (List.dropWhile_suffix isBlank).subset (List.mem_reverse.1 hs)

/-- Neither end of a text is blank. -/
structure Trimmed (cs : List Char) : Prop where
  head : ∀ c ∈ cs.head?, isBlank c = false
  last : ∀ c ∈ cs.getLast?, isBlank c = false

theorem trimStart_eq_self {cs : List Char} (h : ∀ c ∈ cs.head?, isBlank c = false) :
    trimStart cs = cs := by
  cases cs with
  | nil => rfl
  | cons c rest => exact List.dropWhile_cons_of_neg (by simp [h c rfl])

theorem trimEnd_eq_self {cs : List Char} (h : ∀ c ∈ cs.getLast?, isBlank c = false) :
    trimEnd cs = cs := by
  have hrev : trimStart cs.reverse = cs.reverse :=
    trimStart_eq_self fun c hc => h c (by rwa [List.head?_reverse] at hc)
  rw [trimEnd, ← trimStart, hrev, List.reverse_reverse]

theorem isBlank_of_head?_trimStart {cs : List Char} {c : Char} (h : c ∈ (trimStart cs).head?) :
    isBlank c = false := by
  have hd := List.head?_dropWhile_not isBlank cs
  rw [← trimStart, Option.mem_def.1 h] at hd
  simpa using hd

theorem trimmed_trim (cs : List Char) : Trimmed (trim cs) := by
  refine ⟨fun c hc => ?_, fun c hc => ?_⟩
  · have hprefix : trim cs <+: trimStart cs := by
      have hs := List.dropWhile_suffix (l := (trimStart cs).reverse) isBlank
      simpa [trim, trimEnd] using List.reverse_prefix.2 hs
    obtain ⟨rest, hrest⟩ := hprefix
    have hhead : c ∈ (trimStart cs).head? := by
      rw [← hrest, List.head?_append, Option.mem_def.1 hc]
      rfl
    exact isBlank_of_head?_trimStart hhead
  · rw [trim, trimEnd, List.getLast?_reverse, ← trimStart] at hc
    exact isBlank_of_head?_trimStart hc

theorem trim_eq_self_iff {cs : List Char} : trim cs = cs ↔ Trimmed cs := by
  constructor
  · intro h
    exact h ▸ trimmed_trim cs
  · intro h
    rw [trim, trimStart_eq_self h.head, trimEnd_eq_self h.last]

theorem trimmed_nil : Trimmed [] := ⟨by simp, by simp⟩

theorem Trimmed.append_cons {before after : List Char} {c : Char} (hb : Trimmed before)
    (hc : isBlank c = false) (ha : Trimmed after) : Trimmed (before ++ c :: after) := by
  refine ⟨fun d hd => ?_, fun d hd => ?_⟩
  · cases before with
    | nil => simpa [← Option.some.inj hd] using hc
    | cons b rest => exact hb.head d hd
  · rw [List.getLast?_append, List.getLast?_cons] at hd
    cases hl : after.getLast? with
    | none => simpa [hl, ← Option.some.inj hd] using hc
    | some l => exact ha.last d (by simpa [hl] using hd)

def AllBlank (cs : List Char) : Prop := ∀ c ∈ cs, isBlank c = true

theorem allBlank_singleton {c : Char} (h : isBlank c = true) : AllBlank [c] := by
  intro b hb
  rwa [List.mem_singleton.1 hb]

theorem AllBlank.append {cs cs' : List Char} (h : AllBlank cs) (h' : AllBlank cs') :
    AllBlank (cs ++ cs') := by
  intro b hb
  exact (List.mem_append.1 hb).elim (h b) (h' b)

theorem trimStart_eq_nil_iff {cs : List Char} : trimStart cs = [] ↔ AllBlank cs :=
  List.dropWhile_eq_nil_iff

theorem trimStart_append {cs : List Char} (h : trimStart cs ≠ []) (more : List Char) :
    trimStart (cs ++ more) = trimStart cs ++ more := by
  rw [trimStart, List.dropWhile_append, if_neg]
  · rfl
  · exact fun hempty => h (List.isEmpty_iff.1 hempty)

theorem trimEnd_append_of_allBlank {blanks : List Char} (cs : List Char) (h : AllBlank blanks) :
    trimEnd (cs ++ blanks) = trimEnd cs := by
  rw [trimEnd, List.reverse_append, List.dropWhile_append_of_pos]
  · rfl
  · intro b hb
    exact h b (List.mem_reverse.1 hb)

theorem trimEnd_append_cons {c : Char} (cs rest : List Char) (h : isBlank c = false) :
    trimEnd (cs ++ c :: rest) = cs ++ c :: trimEnd rest := by
  have hc : isBlank c ≠ true := by simp [h]
  have hrev : (cs ++ c :: rest).reverse = rest.reverse ++ c :: cs.reverse := by simp
  rw [trimEnd, hrev, List.dropWhile_append, List.dropWhile_cons_of_neg hc]
  split
  · next hempty =>
    rw [trimEnd, List.isEmpty_iff.1 hempty]
    simp
  · simp [trimEnd]

theorem exists_eq_trimEnd_append (cs : List Char) :
    ∃ blanks, AllBlank blanks ∧ cs = trimEnd cs ++ blanks := by
  refine ⟨(cs.reverse.takeWhile isBlank).reverse, fun b hb => ?_, ?_⟩
  · exact List.mem_takeWhile_imp (List.mem_reverse.1 hb)
  · rw [trimEnd, ← List.reverse_append, List.takeWhile_append_dropWhile, List.reverse_reverse]

theorem trim_append_of_allBlank {blanks : List Char} (cs : List Char) (h : AllBlank blanks) :
    trim (cs ++ blanks) = trim cs := by
  by_cases hs : trimStart cs = []
  · have hboth : trimStart (cs ++ blanks) = [] :=
      trimStart_eq_nil_iff.2 ((trimStart_eq_nil_iff.1 hs).append h)
    rw [trim, hboth, trim, hs]
  · rw [trim, trimStart_append hs, trimEnd_append_of_allBlank _ h, trim]

/-- What comes after a text that is not blank, up to a character that is not blank, stays. -/
theorem exists_trim_append_cons {cs : List Char} (h : trim cs ≠ []) :
    ∃ blanks, AllBlank blanks ∧ ∀ gap mark rest, isBlank mark = false →
      trim (cs ++ (gap ++ mark :: rest)) =
        trim cs ++ (blanks ++ (gap ++ mark :: trimEnd rest)) := by
  have hs : trimStart cs ≠ [] := by
    intro hs
    exact h (by rw [trim, hs, trimEnd_nil])
  obtain ⟨blanks, hblanks, hcs⟩ := exists_eq_trimEnd_append (trimStart cs)
  refine ⟨blanks, hblanks, fun gap mark rest hmark => ?_⟩
  rw [trim, trimStart_append hs, ← List.append_assoc, trimEnd_append_cons _ _ hmark, trim,
    List.append_assoc, ← List.append_assoc (trimEnd _), ← hcs]

theorem isPrefixOf?_cons_cons (c d : Char) (start text : List Char) :
    (c :: start).isPrefixOf? (d :: text) = if c == d then start.isPrefixOf? text else none := rfl

theorem isPrefixOf?_eq_some_iff {start text rest : List Char} :
    start.isPrefixOf? text = some rest ↔ text = start ++ rest := by
  induction start generalizing text with
  | nil => exact Option.some_inj
  | cons c start ih =>
    cases text with
    | nil => exact iff_of_false (Option.some_ne_none rest).symm (List.cons_ne_nil c _).symm
    | cons d text =>
      rw [isPrefixOf?_cons_cons, List.cons_append, List.cons.injEq]
      by_cases h : c = d
      · rw [if_pos (beq_iff_eq.2 h), ih, and_iff_right h.symm]
      · rw [if_neg (by simpa using h)]
        simp [Ne.symm h]

theorem eq_of_cutAround {needle text before after : List Char}
    (h : cutAround needle text = some (before, after)) : text = before ++ needle ++ after := by
  induction text generalizing before with
  | nil =>
    unfold cutAround at h
    split at h
    · next hempty =>
      obtain ⟨rfl, rfl⟩ := Prod.mk.inj (Option.some.inj h)
      simpa using hempty
    · exact absurd h (by simp)
  | cons c rest ih =>
    unfold cutAround at h
    split at h
    · next tail htail =>
      obtain ⟨rfl, rfl⟩ := Prod.mk.inj (Option.some.inj h)
      exact isPrefixOf?_eq_some_iff.1 htail
    · obtain ⟨⟨b, a⟩, hb, hcut⟩ := Option.map_eq_some_iff.1 h
      obtain ⟨rfl, rfl⟩ := Prod.mk.inj hcut
      rw [ih hb]
      rfl

theorem dropSuffix?_eq_some_iff {tail text rest : List Char} :
    dropSuffix? tail text = some rest ↔ text = rest ++ tail := by
  simp only [dropSuffix?, Option.map_eq_some_iff, isPrefixOf?_eq_some_iff]
  constructor
  · rintro ⟨back, hback, rfl⟩
    rw [← List.reverse_reverse text, hback, List.reverse_append, List.reverse_reverse]
  · rintro rfl
    exact ⟨rest.reverse, List.reverse_append, List.reverse_reverse rest⟩

@[simp] theorem dropSuffix?_append (tail text : List Char) :
    dropSuffix? tail (text ++ tail) = some text :=
  dropSuffix?_eq_some_iff.2 rfl

theorem dropSuffix?_eq_none_iff {tail text : List Char} :
    dropSuffix? tail text = none ↔ ¬ tail <:+ text := by
  rw [Option.eq_none_iff_forall_ne_some]
  constructor
  · rintro h ⟨rest, hrest⟩
    exact h rest (dropSuffix?_eq_some_iff.2 hrest.symm)
  · intro h rest hrest
    exact h ⟨rest, (dropSuffix?_eq_some_iff.1 hrest).symm⟩

/-- No character of a line ends it. -/
def IsLine (cs : List Char) : Prop := '\n' ∉ cs ∧ '\r' ∉ cs

theorem lines_newline (rest : List Char) : lines ('\n' :: rest) = [] :: lines rest := by
  rw [lines] <;> simp

/-- A line with its end is the first line of what follows. -/
theorem lines_append {line : List Char} (rest : List Char) (h : IsLine line) :
    lines (line ++ '\n' :: rest) = line :: lines rest := by
  induction line with
  | nil => exact lines_newline rest
  | cons c line ih =>
    obtain ⟨hn, hn'⟩ := List.ne_and_not_mem_of_not_mem_cons h.1
    obtain ⟨hr, hr'⟩ := List.ne_and_not_mem_of_not_mem_cons h.2
    rw [List.cons_append, lines, if_neg (Ne.symm hn), ih ⟨hn', hr'⟩]
    exact fun _ hc _ => hr hc.symm

/-- A carriage return before the line feed is no part of the line. -/
theorem exists_lines_row {row : List Char} (h : '\n' ∉ row) :
    ∃ line, (row = line ∨ row = line ++ ['\r']) ∧
      ∀ rest, lines (row ++ '\n' :: rest) = line :: lines rest := by
  induction row with
  | nil => exact ⟨[], Or.inl rfl, lines_newline⟩
  | cons c row ih =>
    obtain ⟨hc, hrow⟩ := List.ne_and_not_mem_of_not_mem_cons h
    by_cases hend : c = '\r' ∧ row = []
    · obtain ⟨rfl, rfl⟩ := hend
      exact ⟨[], Or.inr rfl, fun rest => by simp [lines]⟩
    · obtain ⟨line, hline, hlines⟩ := ih hrow
      refine ⟨c :: line, by simpa using hline, fun rest => ?_⟩
      rw [List.cons_append, lines, if_neg (Ne.symm hc), hlines]
      intro tail hreturn htail
      cases row with
      | nil => exact hend ⟨hreturn, rfl⟩
      | cons d row => exact hrow (by simp [(List.cons.inj htail).1])

theorem lines_eq_singleton {row : List Char} (h : '\n' ∉ row) (hne : row ≠ []) :
    lines row = [row] := by
  induction row with
  | nil => exact absurd rfl hne
  | cons c row ih =>
    obtain ⟨hc, hrow⟩ := List.ne_and_not_mem_of_not_mem_cons h
    rw [lines, if_neg (Ne.symm hc)]
    · cases row with
      | nil => rw [lines_nil]
      | cons d row => rw [ih hrow (List.cons_ne_nil d row)]
    · intro tail _ htail
      exact hrow (by simp [htail])

/-- A text of whole lines, each with its end. -/
inductive WholeLines : List Char → Prop where
  | nil : WholeLines []
  | row {row rest : List Char} (h : '\n' ∉ row) :
      WholeLines rest → WholeLines (row ++ '\n' :: rest)

theorem WholeLines.exists_lines_append {before : List Char} (h : WholeLines before) :
    ∃ front, ∀ rest, lines (before ++ rest) = front ++ lines rest := by
  induction h with
  | nil => exact ⟨[], fun _ => rfl⟩
  | row hrow _ ih =>
    obtain ⟨front, hfront⟩ := ih
    obtain ⟨line, -, hline⟩ := exists_lines_row hrow
    refine ⟨line :: front, fun rest => ?_⟩
    rw [List.append_assoc, List.cons_append, hline, hfront, List.cons_append]

end SectionCompiler.Text
