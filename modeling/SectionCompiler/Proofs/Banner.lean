import SectionCompiler.Name
import SectionCompiler.Proofs.Blocks
import SectionCompiler.Proofs.Rows

/-! Banners. The first line of a banner is a comment, but a name is written as it is, and a line
break in it ends that line. What comes after it is read as lines of the text, so the banners of some
names leave the data alone exactly when none of these lines says anything. -/

namespace SectionCompiler

theorem Section.pushItem_ne_empty (s : Section) (key item : String) : s.pushItem key item ≠ ∅ := by
  have hextend (es : List Entry) : extendLast? key item es ≠ some [] := by
    intro h
    cases es with
    | nil => exact absurd h nofun
    | cons e rest =>
      rw [extendLast?.eq_def] at h
      dsimp only at h
      split at h
      · obtain ⟨rest', -, hcons⟩ := Option.map_eq_some_iff.1 h
        exact List.cons_ne_nil _ _ hcons
      · split at h
        · split at h
          · exact List.cons_ne_nil _ _ (Option.some.inj h)
          · exact absurd h nofun
        · exact absurd h nofun
  intro h
  unfold pushItem at h
  split at h
  · next es hes =>
    obtain rfl : es = [] := congrArg entries h
    exact hextend _ hes
  · exact List.append_ne_nil_of_right_ne_nil _ (List.cons_ne_nil _ _) (congrArg entries h)

namespace Ini

open Text

def spilled (name : String) : List (List Char) := (lines name.toList).tail

/-- All lines of the name after its first are blank or comments. -/
def Harmless (name : String) : Prop := ∀ line ∈ spilled name, Line.ofChars line = .blank

instance (name : String) : Decidable (Harmless name) :=
  inferInstanceAs (Decidable (∀ line ∈ spilled name, Line.ofChars line = .blank))

/-! ### What is read of a banner -/

theorem Reading.read_line (r : Reading) {row : List Char} (h : '\n' ∉ row) (rest : List Char) :
    r.read (row ++ '\n' :: rest) = (r.step (Line.ofChars row)).read rest := by
  rw [read, map_ofChars_lines_row h]
  rfl

theorem Reading.read_append_newline (r : Reading) (cs rest : List Char) :
    r.read (cs ++ '\n' :: rest) = (r.read cs).read rest := by
  -- over the line breaks of the first text
  induction h : cs.count '\n' generalizing r cs with
  | zero =>
    have hcs : '\n' ∉ cs := List.count_eq_zero.1 h
    by_cases hne : cs = []
    · rw [hne, List.nil_append, read_newline, read, read, read, lines_nil]
      rfl
    · rw [read, map_ofChars_lines_row hcs, read, read, lines_eq_singleton hcs hne]
      rfl
  | succ n ih =>
    have hmem : '\n' ∈ cs := List.count_pos_iff.1 (by omega)
    obtain ⟨row, more, rfl, hrow⟩ := List.eq_append_cons_of_mem hmem
    have hmore : more.count '\n' = n := by
      rw [List.count_append, List.count_cons_self, List.count_eq_zero.2 hrow] at h
      omega
    rw [List.append_assoc, List.cons_append, read_line r hrow, ih _ more hmore, read_line r hrow]

theorem tail_lines {cs : List Char} (h : '\n' ∉ cs) : (lines cs).tail = [] := by
  by_cases hne : cs = []
  · rw [hne, lines_nil, List.tail_nil]
  · rw [lines_eq_singleton h hne, List.tail_cons]

theorem ofChars_semicolon (cs : List Char) : Line.ofChars (';' :: cs) = .blank := by
  have hstart : trimStart (';' :: cs) = ';' :: cs :=
    trimStart_eq_self fun c hc => by
      obtain rfl := Option.some.inj hc
      decide
  have hend : trimEnd (';' :: cs) = ';' :: trimEnd cs := trimEnd_append_cons [] cs (by decide)
  rw [Line.ofChars, trim, hstart, hend]
  exact if_pos (Or.inr (Or.inl rfl))

/-- A comment says no more than the lines after its first. -/
theorem Reading.read_comment (r : Reading) (label cs : List Char) (h : '\n' ∉ label) :
    r.read (';' :: label ++ cs) = ((lines cs).tail.map Line.ofChars).foldl step r := by
  have hlabel {row : List Char} (hrow : '\n' ∉ row) : '\n' ∉ ';' :: label ++ row := by
    simp [h, hrow]
  by_cases hmem : '\n' ∈ cs
  · obtain ⟨row, more, rfl, hrow⟩ := List.eq_append_cons_of_mem hmem
    obtain ⟨first, -, hlines⟩ := exists_lines_row hrow
    rw [hlines, List.tail_cons, ← List.append_assoc, read_line r (hlabel hrow), List.cons_append,
      ofChars_semicolon]
    rfl
  · rw [tail_lines hmem, read, lines_eq_singleton (hlabel hmem) (List.cons_ne_nil _ _),
      List.map_singleton, List.cons_append, ofChars_semicolon]
    rfl

/-- A banner says what its name spills. -/
theorem Reading.read_bannerLine (r : Reading) (name : String) (rest : List Char) :
    r.read (bannerLine name ++ rest) =
      (((spilled name).map Line.ofChars).foldl step r).read rest := by
  have hbanner : bannerLine name = ';' :: " File: ".toList ++ name.toList ++ ['\n'] := rfl
  rw [hbanner, List.append_assoc _ ['\n'], List.singleton_append, read_append_newline,
    read_comment r _ _ (by decide), spilled]

def bannered (d : String × Document) : List Line :=
  (spilled d.1).map Line.ofChars ++ d.2.entries.flatMap sectionReading

theorem Reading.read_bannered (r : Reading) (documents : List (String × Document)) :
    r.read (renderChars documents false) = (documents.flatMap bannered).foldl step r := by
  induction documents generalizing r with
  | nil => rfl
  | cons d rest ih =>
    have hcons : renderChars (d :: rest) false =
        bannerLine d.1 ++ (documentLines d.2 ++ '\n' :: renderChars rest false) := by
      simp [renderChars]
    rw [hcons, read_bannerLine, read_documentLines, read_newline, ih, List.flatMap_cons, bannered,
      List.foldl_append, List.foldl_append]

theorem parse_render_bannered (documents : List (String × Document)) :
    parse (render documents false) = parseLines (documents.flatMap bannered) := by
  have h := Reading.start.read_bannered documents
  rw [Reading.read] at h
  rw [parse, parseLines, parseLines, render, String.toList_ofList, h]

/-! ### Harmless names -/

theorem harmless_of_notMem {name : String} (h : '\n' ∉ name.toList) : Harmless name := by
  rw [Harmless, spilled, tail_lines h]
  exact fun line hline => absurd hline List.not_mem_nil

theorem foldl_step_blanks {ls : List Line} (h : ∀ line ∈ ls, line = .blank) (r : Reading) :
    ls.foldl Reading.step r = r := by
  induction ls with
  | nil => rfl
  | cons line ls ih =>
    obtain ⟨rfl, hls⟩ := List.forall_mem_cons.1 h
    exact ih hls

theorem foldl_step_bannered {documents : List (String × Document)}
    (h : ∀ d ∈ documents, Harmless d.1) (r : Reading) :
    (documents.flatMap bannered).foldl Reading.step r =
      ((contents documents).flatMap sectionReading).foldl Reading.step r := by
  induction documents generalizing r with
  | nil => rfl
  | cons d rest ih =>
    obtain ⟨hd, hrest⟩ := List.forall_mem_cons.1 h
    have hblank : ∀ line ∈ (spilled d.1).map Line.ofChars, line = .blank :=
      List.forall_mem_map.2 hd
    have hcontents : contents (d :: rest) = d.2.entries ++ contents rest := rfl
    rw [List.flatMap_cons, bannered, List.foldl_append, List.foldl_append,
      foldl_step_blanks hblank, ih hrest, hcontents, List.flatMap_append, List.foldl_append]

theorem foldl_step_start {ls : List (List Char)} (h : ∀ line ∈ ls, opened? line = none) :
    (ls.map Line.ofChars).foldl Reading.step Reading.start = Reading.start := by
  induction ls with
  | nil => rfl
  | cons line ls ih =>
    obtain ⟨hline, hls⟩ := List.forall_mem_cons.1 h
    have hstep : Reading.start.step (Line.ofChars line) = Reading.start := by
      cases hsaid : Line.ofChars line with
      | blank => rfl
      | header heading => exact absurd (hline.symm.trans (opened?_eq_some_iff.2 hsaid)) nofun
      | entry key value => rfl
      | item key value => rfl
    rw [List.map_cons, List.foldl_cons, hstep, ih hls]

theorem Line.change_ne_empty {line : Line} (h : line.IsContent) (s : Section) :
    line.change s ≠ ∅ := by
  cases line with
  | blank => exact absurd h not_false
  | header heading => exact absurd h not_false
  | entry key value =>
    exact fun he => List.append_ne_nil_of_right_ne_nil _ (List.cons_ne_nil _ _)
      (congrArg Section.entries he)
  | item key value => exact s.pushItem_ne_empty key value

theorem Line.change_of_not_isContent {line : Line} (h : ¬ line.IsContent) (s : Section) :
    line.change s = s := by
  cases line with
  | blank => rfl
  | header heading => rfl
  | entry key value => exact absurd trivial h
  | item key value => exact absurd trivial h

theorem not_isContent_of_contentOf {ls : List (List Char)} (h : contentOf ls = ∅) :
    ∀ line ∈ ls, ¬ (Line.ofChars line).IsContent := by
  induction ls using List.reverseRecOn with
  | nil => exact fun line hline => absurd hline List.not_mem_nil
  | append_singleton ls last ih =>
    rw [contentOf_concat] at h
    have hlast : ¬ (Line.ofChars last).IsContent := fun hc => Line.change_ne_empty hc _ h
    rw [Line.change_of_not_isContent hlast] at h
    intro line hline
    rcases List.mem_append.1 hline with hline | hline
    · exact ih h line hline
    · obtain rfl := List.mem_singleton.1 hline
      exact hlast

theorem eq_blank_of_not {line : List Char} (hheader : opened? line = none)
    (hcontent : ¬ (Line.ofChars line).IsContent) : Line.ofChars line = .blank := by
  cases h : Line.ofChars line with
  | blank => rfl
  | header heading => exact absurd (hheader.symm.trans (opened?_eq_some_iff.2 h)) nofun
  | entry key value => exact absurd (h ▸ trivial) hcontent
  | item key value => exact absurd (h ▸ trivial) hcontent

def headingOnly (heading : String) : Document := ⟨[(heading, ∅)], List.nodup_singleton heading⟩

/-- The banner of the name changes the data of no documents. -/
def Inert (name : String) : Prop :=
  ∀ documents, (∀ d ∈ documents, d.1 = name) →
    parse (render documents false) = parse (render documents true)

namespace Inert

variable {name : String}

/-- A header would be a section of a document that has none. -/
theorem opened?_eq_none (h : Inert name) : ∀ line ∈ spilled name, opened? line = none := by
  have hparse : parseLines ((spilled name).map Line.ofChars) = parseLines [] := by
    simpa [parse_render_bannered, parse_render, bannered, contents] using h [(name, ∅)] (by simp)
  have hkeys := (reads_lines (spilled name)).keys
  intro line hline
  cases hheading : opened? line with
  | none => rfl
  | some heading =>
    have hmem : heading ∈ (parseLines ((spilled name).map Line.ofChars)).keys :=
      hkeys ▸ List.mem_eraseDups.2 (List.mem_filterMap.2 ⟨line, hline, hheading⟩)
    rw [hparse] at hmem
    exact absurd hmem List.not_mem_nil

/-- An entry would go to the section before it, which has none. -/
theorem contentOf_spilled (h : Inert name) : contentOf (spilled name) = ∅ := by
  have hheader : opened? (headerRow "S") = some "S" :=
    opened?_eq_some_iff.2 (ofChars_headerRow "S")
  have hwith : [(name, headingOnly "S"), (name, ∅)].flatMap bannered =
      (spilled name).map Line.ofChars ++ (headerRow "S" :: spilled name).map Line.ofChars := by
    simp [bannered, headingOnly, sectionReading, sectionRows]
  have hwithout : (contents [(name, headingOnly "S"), (name, ∅)]).flatMap sectionReading =
      [.header "S"] := by
    simp [contents, headingOnly, sectionReading, sectionRows, ofChars_headerRow]
  have hparse := h [(name, headingOnly "S"), (name, ∅)] (by simp)
  rw [parse_render_bannered, parse_render, hwith, hwithout, parseLines, List.foldl_append,
    foldl_step_start h.opened?_eq_none] at hparse
  have hsection := (reads_lines (headerRow "S" :: spilled name)).content "S"
  rw [hparse, linesUnder_cons hheader h.opened?_eq_none] at hsection
  exact hsection.symm

theorem harmless (h : Inert name) : Harmless name := fun line hline =>
  eq_blank_of_not (h.opened?_eq_none line hline)
    (not_isContent_of_contentOf h.contentOf_spilled line hline)

end Inert

/-- Banners leave the data of all documents with names of a kind alone exactly when every name of
that kind is harmless, as each name without a line break is. -/
theorem banners_inert_iff (P : String → Prop) :
    ((∀ documents, (∀ d ∈ documents, P d.1) →
        parse (render documents false) = parse (render documents true)) ↔
      ∀ name, P name → Harmless name) ∧
    ∀ name : String, '\n' ∉ name.toList → Harmless name := by
  refine ⟨⟨fun h name hname => ?_, fun h documents hdocuments => ?_⟩,
    fun name => harmless_of_notMem⟩
  · have hinert : Inert name := fun documents hdocuments =>
      h documents fun d hd => hdocuments d hd ▸ hname
    exact hinert.harmless
  · rw [parse_render_bannered, parse_render, parseLines, parseLines,
      foldl_step_bannered fun d hd => h d.1 (hdocuments d hd)]

/-- A comment after the line break is harmless, a key is not. -/
example : Harmless "units.ini\n ; old\n" ∧ ¬ Harmless "units\nold.ini" := by decide +kernel

/-- The name of a file may have a line break in it, and its banner may then say a section. -/
theorem banner_read_as_section :
    Name.normalize "a\n[X]\nb.ini" = "a\n[X]\nb.ini" ∧
    parse (render [("a\n[X]\nb.ini", headingOnly "S")] false) ≠
      parse (render [("a\n[X]\nb.ini", headingOnly "S")] true) := by
  decide +kernel

end Ini

end SectionCompiler
