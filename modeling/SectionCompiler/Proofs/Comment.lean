import SectionCompiler.Proofs.Gathering
import SectionCompiler.Proofs.Written

/-! Comments at the ends of lines. What comes after a line with a value belongs to the value, where
a semicolon after a blank drops it again. A value in double quotes takes it in, and so do a header
and a key without a value, for which no comment is looked for. -/

namespace SectionCompiler.Ini

open Text

/-! ### The value of a longer line -/

theorem cutAfterQuote_append_right {cs quoted rest : List Char}
    (h : cutAfterQuote cs = some (quoted, rest)) (more : List Char) :
    cutAfterQuote (cs ++ more) = some (quoted, rest ++ more) := by
  induction cs using cutAfterQuote.induct generalizing quoted with
  | case1 c cs ih =>
    rw [cutAfterQuote] at h
    obtain ⟨⟨q, r⟩, hcut, he⟩ := Option.map_eq_some_iff.1 h
    obtain ⟨rfl, rfl⟩ := Prod.mk.inj he
    rw [List.cons_append, List.cons_append, cutAfterQuote, ih hcut, Option.map_some]
  | case2 cs hesc =>
    rw [cutAfterQuote, if_pos rfl] at h
    · obtain ⟨rfl, rfl⟩ := Prod.mk.inj (Option.some.inj h)
      rfl
    · exact hesc
  | case3 c cs hesc hc ih =>
    rw [cutAfterQuote, if_neg hc] at h
    · obtain ⟨⟨q, r⟩, hcut, he⟩ := Option.map_eq_some_iff.1 h
      obtain ⟨rfl, rfl⟩ := Prod.mk.inj he
      -- a backslash at the end of the text escapes nothing, but then no quote closes either
      have hb : c ≠ '\\' := by
        intro hb
        cases cs with
        | nil => exact absurd hcut (by simp [cutAfterQuote])
        | cons d cs => exact hesc d cs hb rfl
      rw [List.cons_append, cutAfterQuote_cons hc hb, ih hcut, Option.map_some]
    · exact hesc
  | case4 => exact absurd h (by simp [cutAfterQuote])

/-- What comes after a line with a value belongs to the value. -/
theorem exists_keyValue?_append {cs key value : List Char} (h : keyValue? cs = some (key, value)) :
    ∃ after, value = trim after ∧
      ∀ more, keyValue? (cs ++ more) = some (key, trim (after ++ more)) := by
  unfold keyValue? at h
  split at h
  · next cs =>
    obtain ⟨⟨quoted, rest⟩, hquoted, h⟩ := Option.bind_eq_some_iff.1 h
    obtain ⟨⟨before, after⟩, hcut, h⟩ := Option.bind_eq_some_iff.1 h
    obtain ⟨rfl, rfl⟩ := Prod.mk.inj (Option.some.inj h)
    refine ⟨after, rfl, fun more => ?_⟩
    rw [List.cons_append, keyValue?, cutAfterQuote_append_right hquoted]
    simp [cutAt_append_right hcut]
  · next hquote =>
    obtain ⟨⟨before, after⟩, hcut, h⟩ := Option.bind_eq_some_iff.1 h
    obtain ⟨rfl, rfl⟩ := Prod.mk.inj (Option.some.inj h)
    refine ⟨after, rfl, fun more => ?_⟩
    obtain ⟨hbefore, rfl⟩ := cutAt_eq_some hcut
    rw [List.append_assoc, List.cons_append, keyValue?_bare hbefore]
    intro hhead
    cases before with
    | nil => exact absurd hhead (by simp)
    | cons c before =>
      obtain rfl := Option.some.inj hhead
      exact hquote _ rfl

/-! ### The comment at the end of a value -/

/-- A comment begins in the first part of a text, or else in the second, unless the semicolon is the
first character of the second. -/
theorem beforeComment?_append {more : List Char} (h : more.head? ≠ some ';') (cs : List Char) :
    beforeComment? (cs ++ more) =
      (beforeComment? cs).or ((beforeComment? more).map (cs ++ ·)) := by
  induction cs with
  | nil => simp [beforeComment?]
  | cons a cs ih =>
    cases cs with
    | nil =>
      cases more with
      | nil => rfl
      | cons b more =>
        have hb : b ≠ ';' := fun he => h (congrArg some he)
        rw [List.singleton_append, beforeComment?, if_neg (fun hmark => hb hmark.2)]
        rfl
    | cons b cs =>
      rw [List.cons_append, List.cons_append, beforeComment?, beforeComment?, ← List.cons_append,
        ih]
      split
      · rfl
      · rw [Option.map_or, Option.map_map]
        rfl

theorem beforeComment?_blanks {blanks : List Char} (h : AllBlank blanks) (comment : List Char) :
    beforeComment? (blanks ++ ' ' :: ';' :: comment) = some (blanks ++ [' ']) := by
  have hnone : beforeComment? blanks = none := by
    apply beforeComment?_eq_none
    intro hm
    exact absurd (h _ hm) (by decide)
  rw [beforeComment?_append (by simp), hnone, Option.none_or, beforeComment?, if_pos (by decide),
    Option.map_some]

/-- A comment after a value is dropped, also when the value has one already. -/
theorem dropComment_append_comment {value blanks : List Char} (hvalue : Trimmed value)
    (hne : value ≠ []) (hquote : value.head? ≠ some '"') (hblanks : AllBlank blanks)
    (comment : List Char) :
    dropComment (value ++ (blanks ++ ' ' :: ';' :: comment)) = dropComment value := by
  have hhead : (value ++ (blanks ++ ' ' :: ';' :: comment)).head? = value.head? := by
    rw [List.head?_append, List.head?_eq_some_head hne, Option.some_or]
  have hmark : (blanks ++ ' ' :: ';' :: comment).head? ≠ some ';' := by
    intro hm
    cases blanks with
    | nil => exact absurd hm (by simp)
    | cons b blanks =>
      obtain rfl := Option.some.inj hm
      exact absurd (hblanks ';' List.mem_cons_self) (by decide)
  rw [dropComment, if_neg (hhead ▸ hquote), beforeComment?_append hmark,
    beforeComment?_blanks hblanks, dropComment, if_neg hquote]
  cases beforeComment? value with
  | some before => rfl
  | none =>
    have hblank : AllBlank (blanks ++ [' ']) := hblanks.append (allBlank_singleton (by decide))
    rw [Option.none_or, Option.map_some]
    dsimp only
    rw [trimEnd_append_of_allBlank value hblank, trimEnd_eq_self hvalue.last]

theorem exists_trim_append_comment {cs : List Char} (h : trim cs ≠ []) :
    ∃ blanks, AllBlank blanks ∧ ∀ comment, trim (cs ++ ' ' :: ';' :: comment) =
      trim cs ++ (blanks ++ ' ' :: ';' :: trimEnd comment) := by
  obtain ⟨blanks, hblanks, htrim⟩ := exists_trim_append_cons h
  exact ⟨blanks, hblanks, fun comment => htrim [' '] ';' comment (by decide)⟩

/-! ### A line with a comment -/

/-- The line sets a key to a value that is not empty and does not begin with a double quote. -/
structure SetsPlain (line : List Char) : Prop where
  isContent : (Line.ofChars line).IsContent
  value : ∃ key value, keyValue? (trim line) = some (key, value) ∧ value ≠ [] ∧
    value.head? ≠ some '"'

/-- The comment closes the bracket that the line begins with. -/
def ClosesHeader (line comment : List Char) : Prop :=
  (trim line).head? = some '[' ∧ (trimEnd comment).getLast? = some ']'

theorem heading?_append_comment {line comment : List Char} (hne : trim line ≠ [])
    (h : ¬ ClosesHeader line comment) (blanks : List Char) :
    Line.heading? (trim line ++ (blanks ++ ' ' :: ';' :: trimEnd comment)) = none := by
  unfold ClosesHeader at h
  cases hline : trim line with
  | nil => exact absurd hline hne
  | cons c rest =>
    by_cases hopen : c = '['
    · have hlast : (trimEnd comment).getLast? ≠ some ']' := fun hl => h ⟨by simp [hline, hopen], hl⟩
      have hsuffix : ¬ [']'] <:+ rest ++ (blanks ++ ' ' :: ';' :: trimEnd comment) := by
        rintro ⟨front, hfront⟩
        have hends : ']' = (trimEnd comment).getLast?.getD ';' := by
          simpa [List.getLast?_append, List.getLast?_cons] using congrArg List.getLast? hfront
        cases hl : (trimEnd comment).getLast? with
        | none => exact absurd (hl ▸ hends) (by decide)
        | some last => exact hlast (by rw [hl, hends, hl, Option.getD_some])
      rw [hopen, List.cons_append, Line.heading?, dropSuffix?_eq_none_iff.2 hsuffix,
        Option.map_none]
    · apply heading?_eq_none
      intro hc
      exact hopen (Option.some.inj hc)

/-- A line that says an entry opens neither a comment nor a header. -/
theorem opening_of_isContent {cs : List Char} (h : (Line.ofTrimmed cs).IsContent) :
    cs ≠ [] ∧ (∀ c ∈ cs.head?, c ∉ [';', '#']) ∧ Line.heading? cs = none := by
  unfold Line.ofTrimmed at h
  split at h
  · exact absurd h not_false
  · next hmark =>
    refine ⟨fun hnil => hmark (Or.inl hnil), fun c hc hm => ?_, ?_⟩
    · rcases List.mem_cons.1 hm with rfl | hm
      · exact hmark (Or.inr (Or.inl hc))
      · obtain rfl := List.mem_singleton.1 hm
        exact hmark (Or.inr (Or.inr hc))
    · cases hheading : Line.heading? cs with
      | none => rfl
      | some heading =>
        rw [hheading] at h
        exact absurd h not_false

/-- A comment after a plain value does not change what the line says. -/
theorem ofChars_append_comment {line comment : List Char} (hline : SetsPlain line)
    (hheader : ¬ ClosesHeader line comment) :
    Line.ofChars (line ++ ' ' :: ';' :: comment) = Line.ofChars line := by
  obtain ⟨key, value, hkey, hvalue, hquote⟩ := hline.value
  obtain ⟨hne, hhead, hheading⟩ := opening_of_isContent hline.isContent
  obtain ⟨blanks, hblanks, htrim⟩ := exists_trim_append_comment hne
  obtain ⟨after, rfl, hafter⟩ := exists_keyValue?_append hkey
  -- the blanks at the end of the line come before the semicolon, as do those of the value
  have hafterBlanks := trim_append_of_allBlank after hblanks
  obtain ⟨gap, hgap, hgapped⟩ := exists_trim_append_comment (hafterBlanks ▸ hvalue)
  have hhead' : ∀ c ∈ (trim line ++ (blanks ++ ' ' :: ';' :: trimEnd comment)).head?,
      c ∉ [';', '#'] := by
    rwa [List.head?_append, List.head?_eq_some_head hne, Option.some_or, ← List.head?_eq_some_head]
  rw [Line.ofChars, htrim, ofTrimmed_eq (by simp) hhead', heading?_append_comment hne hheader,
    hafter, Line.ofChars, ofTrimmed_eq hne hhead, hheading, hkey]
  dsimp only
  rw [← List.append_assoc, hgapped, hafterBlanks,
    dropComment_append_comment (trimmed_trim after) hvalue hquote hgap]

/-! ### A text with a comment -/

/-- The text before a line is made of whole lines, and the text after it is empty or begins with
the end of the line. -/
structure IsLineOf (line before after : List Char) : Prop where
  start : WholeLines before
  single : '\n' ∉ line
  stop : after = [] ∨ ['\n'] <+: after ∨ ['\r', '\n'] <+: after

theorem ofChars_append_return (row : List Char) :
    Line.ofChars (row ++ ['\r']) = Line.ofChars row := by
  have hblank : AllBlank ['\r'] := allBlank_singleton (by decide)
  rw [Line.ofChars, trim_append_of_allBlank row hblank, Line.ofChars]

theorem map_ofChars_lines_row {row : List Char} (h : '\n' ∉ row) (rest : List Char) :
    (lines (row ++ '\n' :: rest)).map Line.ofChars =
      Line.ofChars row :: (lines rest).map Line.ofChars := by
  obtain ⟨line, hrow, hlines⟩ := exists_lines_row h
  rw [hlines, List.map_cons]
  rcases hrow with rfl | rfl
  · rfl
  · rw [ofChars_append_return]

/-- The lines around a line are the same, whatever the line says. -/
theorem exists_map_ofChars_lines {line before after : List Char} (h : IsLineOf line before after) :
    ∃ front back, ∀ row, row ≠ [] → '\n' ∉ row →
      (lines (before ++ (row ++ after))).map Line.ofChars = front ++ Line.ofChars row :: back := by
  obtain ⟨front, hfront⟩ := h.start.exists_lines_append
  have hback : ∃ back, ∀ row, row ≠ [] → '\n' ∉ row →
      (lines (row ++ after)).map Line.ofChars = Line.ofChars row :: back := by
    rcases h.stop with rfl | ⟨rest, rfl⟩ | ⟨rest, rfl⟩
    · refine ⟨[], fun row hne hrow => ?_⟩
      rw [List.append_nil, lines_eq_singleton hrow hne]
      rfl
    · exact ⟨_, fun row _ hrow => map_ofChars_lines_row hrow rest⟩
    · refine ⟨(lines rest).map Line.ofChars, fun row _ hrow => ?_⟩
      -- the carriage return goes to the row, where it is trimmed
      have hreturn : row ++ (['\r', '\n'] ++ rest) = (row ++ ['\r']) ++ '\n' :: rest := by simp
      rw [hreturn, map_ofChars_lines_row (by simp [hrow]), ofChars_append_return]
  obtain ⟨back, hback⟩ := hback
  refine ⟨front.map Line.ofChars, back, fun row hne hrow => ?_⟩
  rw [hfront, List.map_append, hback row hne hrow]

/-- A comment after a plain value is inert. -/
theorem parse_commented {before line comment after : String}
    (hline : IsLineOf line.toList before.toList after.toList) (hplain : SetsPlain line.toList)
    (hcomment : '\n' ∉ comment.toList) (hheader : ¬ ClosesHeader line.toList comment.toList) :
    parse (before ++ line ++ " ;" ++ comment ++ after) = parse (before ++ line ++ after) := by
  obtain ⟨front, back, hlines⟩ := exists_map_ofChars_lines hline
  have hne : line.toList ≠ [] := by
    intro hnil
    exact (opening_of_isContent hplain.isContent).1 (by rw [hnil, trim_nil])
  have hrow : '\n' ∉ line.toList ++ ' ' :: ';' :: comment.toList := by
    simp [hline.single, hcomment]
  have hcommented : (before ++ line ++ " ;" ++ comment ++ after).toList =
      before.toList ++ ((line.toList ++ ' ' :: ';' :: comment.toList) ++ after.toList) := by
    simp
  have hplainly : (before ++ line ++ after).toList =
      before.toList ++ (line.toList ++ after.toList) := by
    simp
  rw [parse, hcommented, hlines _ (by simp) hrow, ofChars_append_comment hplain hheader, parse,
    hplainly, hlines _ hne hline.single]

theorem parse_commented_turret :
    parse ("[Turret]\n" ++ "Ammo[] = HE ; first" ++ " ;" ++ " then AP]" ++ "\r\nRange=12\n") =
      parse ("[Turret]\n" ++ "Ammo[] = HE ; first" ++ "\r\nRange=12\n") := by
  refine parse_commented ⟨?_, by decide, Or.inr (Or.inr ⟨_, rfl⟩)⟩ ⟨?_, ?_⟩ (by decide) ?_
  · exact @WholeLines.row "[Turret]".toList [] (by decide) .nil
  · have hitem : Line.ofChars "Ammo[] = HE ; first".toList = .item "Ammo" "HE" := by
      decide +kernel
    rw [hitem]
    trivial
  · exact ⟨_, _, rfl, by decide, by decide⟩
  · intro h
    exact absurd h.1 (by decide)

/-- A comment is read after a header, after a key without a value, after a value in double quotes,
and where it closes a bracket. -/
theorem comment_kept :
    parse ("" ++ "[S]" ++ " ;" ++ "c" ++ "\nA=1\n") ≠ parse ("" ++ "[S]" ++ "\nA=1\n") ∧
    parse ("[S]\n" ++ "Fast" ++ " ;" ++ "c" ++ "\n") ≠ parse ("[S]\n" ++ "Fast" ++ "\n") ∧
    parse ("[S]\n" ++ "A=\"x\"" ++ " ;" ++ "c" ++ "\n") ≠
      parse ("[S]\n" ++ "A=\"x\"" ++ "\n") ∧
    parse ("[S]\n" ++ "[A=1" ++ " ;" ++ "]" ++ "\n") ≠ parse ("[S]\n" ++ "[A=1" ++ "\n") := by
  decide +kernel

end SectionCompiler.Ini
