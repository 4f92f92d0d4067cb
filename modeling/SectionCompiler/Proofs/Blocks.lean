import SectionCompiler.Proofs.Comment
import SectionCompiler.Proofs.Folding

/-! The blocks of an INI text. A block is a header with the lines after it, up to the next header.
The section of a heading is what the lines of all its blocks say, one after another, and no line of
another block has a part in it. -/

namespace SectionCompiler.Ini

open Text

variable {ls : List (List Char)} {line : List Char} {heading : String}

def opened? (line : List Char) : Option String :=
  match Line.ofChars line with
  | .header heading => some heading
  | _ => none

def lastOpened? (ls : List (List Char)) : Option String := (ls.filterMap opened?).getLast?

/-- The lines under a heading: those that are no header and before which the last header has that
heading. -/
def linesUnder (heading : String) (ls : List (List Char)) : List (List Char) :=
  (ls.zipIdx.filter fun (line, i) =>
    opened? line = none ∧ lastOpened? (ls.take i) = some heading).map Prod.fst

def ofLines (ls : List (List Char)) : String := String.ofList (ls.flatMap (· ++ ['\n']))

/-- What some lines say when they stand under one header. -/
def contentOf (ls : List (List Char)) : Section :=
  ls.foldl (fun s line => (Line.ofChars line).change s) ∅

theorem opened?_eq_some_iff : opened? line = some heading ↔ Line.ofChars line = .header heading := by
  unfold opened?
  split
  · next h => rw [h, Option.some.injEq, Line.header.injEq]
  · next h => exact ⟨nofun, fun he => absurd he (h heading)⟩

theorem lastOpened?_concat (ls : List (List Char)) (line : List Char) :
    lastOpened? (ls ++ [line]) = (opened? line).or (lastOpened? ls) := by
  rw [lastOpened?, List.filterMap_append]
  cases h : opened? line with
  | none => simp [h, lastOpened?]
  | some heading => simp [h]

theorem linesUnder_concat (heading : String) (ls : List (List Char)) (line : List Char) :
    linesUnder heading (ls ++ [line]) = linesUnder heading ls ++
      if opened? line = none ∧ lastOpened? ls = some heading then [line] else [] := by
  have hbefore : ls.zipIdx.filter (fun (row, i) =>
        opened? row = none ∧ lastOpened? ((ls ++ [line]).take i) = some heading) =
      ls.zipIdx.filter fun (row, i) =>
        opened? row = none ∧ lastOpened? (ls.take i) = some heading := by
    refine List.filter_congr fun (row, i) he => ?_
    have hlt := (List.mem_zipIdx he).2.1
    have htake : (ls ++ [line]).take i = ls.take i := List.take_append_of_le_length (by omega)
    simp only [htake]
  rw [linesUnder, List.zipIdx_append, List.filter_append, hbefore, List.map_append, linesUnder]
  congr 1
  simp only [List.zipIdx_singleton, List.filter_cons, List.filter_nil, Nat.zero_add,
    List.take_left, decide_eq_true_eq]
  split <;> rfl

theorem contentOf_concat (ls : List (List Char)) (line : List Char) :
    contentOf (ls ++ [line]) = (Line.ofChars line).change (contentOf ls) := by
  rw [contentOf, List.foldl_append]
  rfl

/-- What has been read of some lines: the last header, the headings in the order in which they come
first, and under each heading what the lines of its blocks say. -/
structure Reads (r : Reading) (ls : List (List Char)) : Prop where
  heading : r.heading = lastOpened? ls
  keys : r.document.keys = (ls.filterMap opened?).eraseDups
  content : ∀ heading, (r.document.get? heading).getD ∅ = contentOf (linesUnder heading ls)

theorem reads_start : Reads Reading.start [] := ⟨rfl, rfl, fun _ => rfl⟩

/-- A header opens a block of its heading and leaves the sections as they are. -/
theorem Reads.step_header {r : Reading} (h : Reads r ls)
    (hline : Line.ofChars line = .header heading) :
    Reads (r.step (Line.ofChars line)) (ls ++ [line]) := by
  have hopened := opened?_eq_some_iff.2 hline
  rw [hline]
  refine ⟨?_, ?_, fun key => ?_⟩
  · rw [lastOpened?_concat, hopened]
    rfl
  · rw [Reading.step, Keyed.keys_alter, List.filterMap_append, h.keys,
      List.filterMap_cons_some hopened, List.filterMap_nil, eraseDups_concat]
    simp only [List.mem_eraseDups]
  · have hunder : linesUnder key (ls ++ [line]) = linesUnder key ls := by
      rw [linesUnder_concat, hopened, if_neg (by simp), List.append_nil]
    rw [Reading.step, Keyed.getD_alter, hunder, ← h.content]
    split <;> rfl

theorem Reads.mem_keys {r : Reading} (h : Reads r ls) (hheading : r.heading = some heading) :
    heading ∈ r.document.keys := by
  rw [h.keys, List.mem_eraseDups]
  exact List.mem_of_getLast? (h.heading.symm.trans hheading)

/-- What a line that is no header leaves as it is, and what it changes in the section of the last
header. -/
structure Reading.Changes (r r' : Reading) (change : Section → Section) : Prop where
  heading : r'.heading = r.heading
  keys : r'.document.keys = r.document.keys
  content : ∀ key, (r'.document.get? key).getD ∅ =
    if r.heading = some key then change ((r.document.get? key).getD ∅)
    else (r.document.get? key).getD ∅

theorem Reads.changes_alter {r : Reading} (h : Reads r ls) (change : Section → Section) :
    r.Changes (r.alter change) change := by
  cases hr : r.heading with
  | none =>
    have halter : r.alter change = r := by rw [Reading.alter, hr]
    rw [halter]
    exact ⟨rfl, rfl, fun key => by rw [hr, if_neg (Option.some_ne_none key).symm]⟩
  | some heading =>
    have halter : r.alter change = { r with document := r.document.alter heading ∅ change } := by
      rw [Reading.alter, hr]
    rw [halter]
    refine ⟨rfl, ?_, fun key => ?_⟩
    · rw [Keyed.keys_alter, if_pos (h.mem_keys hr)]
    · rw [Keyed.getD_alter, hr]
      simp only [Option.some.injEq, eq_comm]

theorem Reads.changes_step {r : Reading} (h : Reads r ls) {line : Line}
    (hline : ∀ heading, line ≠ .header heading) : r.Changes (r.step line) line.change := by
  cases line with
  | blank => exact ⟨rfl, rfl, fun key => (ite_self _).symm⟩
  | header heading => exact absurd rfl (hline heading)
  | entry key value => exact h.changes_alter _
  | item key value => exact h.changes_alter _

/-- Reading goes on by one line. -/
theorem Reads.step {r : Reading} (h : Reads r ls) (line : List Char) :
    Reads (r.step (Line.ofChars line)) (ls ++ [line]) := by
  cases hopened : opened? line with
  | some heading => exact h.step_header (opened?_eq_some_iff.1 hopened)
  | none =>
    have hline (heading : String) : Line.ofChars line ≠ .header heading := fun he =>
      absurd (hopened.symm.trans (opened?_eq_some_iff.2 he)) nofun
    obtain ⟨hheading, hkeys, hcontent⟩ := h.changes_step hline
    refine ⟨?_, ?_, fun key => ?_⟩
    · rw [hheading, lastOpened?_concat, hopened, h.heading]
      rfl
    · rw [hkeys, List.filterMap_append, List.filterMap_cons_none hopened, List.filterMap_nil,
        List.append_nil, h.keys]
    · rw [hcontent, h.content, h.heading, linesUnder_concat]
      by_cases hlast : lastOpened? ls = some key
      · rw [if_pos hlast, if_pos ⟨hopened, hlast⟩, contentOf_concat]
      · rw [if_neg hlast, if_neg (fun hc => hlast hc.2), List.append_nil]

theorem reads_lines (ls : List (List Char)) :
    Reads ((ls.map Line.ofChars).foldl Reading.step Reading.start) ls := by
  induction ls using List.reverseRecOn with
  | nil => exact reads_start
  | append_singleton ls line ih =>
    rw [List.map_append, List.foldl_append]
    exact ih.step line

/-! ### The text of one heading -/

theorem newline_notMem_of_mem_lines {cs : List Char} (h : line ∈ lines cs) : '\n' ∉ line := by
  induction cs using lines.induct generalizing line with
  | case1 => exact absurd h (by simp)
  | case2 rest ih =>
    rw [lines] at h
    rcases List.mem_cons.1 h with rfl | h
    · exact List.not_mem_nil
    · exact ih h
  | case3 rest hreturn ih =>
    rw [lines_newline] at h
    rcases List.mem_cons.1 h with rfl | h
    · exact List.not_mem_nil
    · exact ih h
  | case4 c rest hreturn hc hrest ih =>
    rw [lines, if_neg hc, hrest] at h
    · obtain rfl := List.mem_singleton.1 h
      simpa using Ne.symm hc
    · exact hreturn
  | case5 c rest hreturn hc first others hrest ih =>
    rw [lines, if_neg hc, hrest] at h
    · rw [hrest] at ih
      rcases List.mem_cons.1 h with rfl | h
      · exact List.not_mem_cons_of_ne_of_not_mem (Ne.symm hc) (ih List.mem_cons_self)
      · exact ih (List.mem_cons_of_mem _ h)
    · exact hreturn

theorem parse_ofLines (h : ∀ line ∈ ls, '\n' ∉ line) :
    parse (ofLines ls) = parseLines (ls.map Line.ofChars) := by
  have hlines : (lines (ls.flatMap (· ++ ['\n']))).map Line.ofChars = ls.map Line.ofChars := by
    induction ls with
    | nil => rw [List.flatMap_nil, lines_nil]
    | cons line ls ih =>
      obtain ⟨hline, hls⟩ := List.forall_mem_cons.1 h
      rw [List.flatMap_cons, List.append_assoc, List.singleton_append, map_ofChars_lines_row hline,
        ih hls, List.map_cons]
  rw [parse, ofLines, String.toList_ofList, hlines]

theorem mem_linesUnder (h : line ∈ linesUnder heading ls) : line ∈ ls ∧ opened? line = none := by
  obtain ⟨⟨row, i⟩, he, rfl⟩ := List.mem_map.1 h
  obtain ⟨hmem, hrow⟩ := List.mem_filter.1 he
  exact ⟨List.fst_mem_of_mem_zipIdx hmem, (of_decide_eq_true hrow).1⟩

theorem lastOpened?_cons {header : List Char} (hheader : opened? header = some heading)
    (h : ∀ line ∈ ls, opened? line = none) : lastOpened? (header :: ls) = some heading := by
  rw [lastOpened?, List.filterMap_cons_some hheader, List.filterMap_eq_nil_iff.2 h]
  rfl

theorem linesUnder_cons {header : List Char} (hheader : opened? header = some heading)
    (h : ∀ line ∈ ls, opened? line = none) : linesUnder heading (header :: ls) = ls := by
  induction ls using List.reverseRecOn with
  | nil =>
    rw [← List.nil_append [header], linesUnder_concat, hheader, if_neg (by simp)]
    rfl
  | append_singleton ls line ih =>
    have hls : ∀ line ∈ ls, opened? line = none := fun row hm => h row (List.mem_append_left _ hm)
    have hline : opened? line = none := h line (List.mem_append_right _ List.mem_cons_self)
    rw [← List.cons_append, linesUnder_concat, ih hls,
      if_pos ⟨hline, lastOpened?_cons hheader hls⟩]

theorem Reads.get?_eq {r : Reading} (h : Reads r ls) (hmem : heading ∈ r.document.keys) :
    r.document.get? heading = some (contentOf (linesUnder heading ls)) := by
  obtain ⟨content, hcontent⟩ := Keyed.mem_keys_iff.1 hmem
  have hd := h.content heading
  rw [hcontent, Option.getD_some] at hd
  rw [hcontent, hd]

/-- A text of one header and of lines that are none has one section, which holds what they say. -/
theorem entries_parse_ofLines {header : List Char} (hheader : opened? header = some heading)
    (hrow : '\n' ∉ header) (h : ∀ line ∈ ls, '\n' ∉ line ∧ opened? line = none) :
    (parse (ofLines (header :: ls))).entries = [(heading, contentOf ls)] := by
  have hopened : ∀ line ∈ ls, opened? line = none := fun line hm => (h line hm).2
  have hreads := reads_lines (header :: ls)
  have hkeys := hreads.keys
  rw [List.filterMap_cons_some hheader, List.filterMap_eq_nil_iff.2 hopened] at hkeys
  obtain ⟨content, hcontent, hentries⟩ := Keyed.entries_of_keys_eq_singleton hkeys
  have hget := hreads.get?_eq (Keyed.mem_keys_iff.2 ⟨content, hcontent⟩)
  rw [linesUnder_cons hheader hopened, hcontent] at hget
  rw [parse_ofLines (List.forall_mem_cons.2 ⟨hrow, fun line hm => (h line hm).1⟩), parseLines,
    hentries, Option.some.inj hget]

/-- Sections are read apart from each other. The headings of a document are those of the headers of
its text, in the order in which they come first. The section of a heading is the one section of the
text that has one header of it and then the lines under it, in their order; so two texts that have
the same lines under a heading have the same section there, whatever blocks stand between them. -/
theorem sections_read_apart (text : String) :
    let ls := lines text.toList
    (parse text).keys = (ls.filterMap opened?).eraseDups ∧
    (∀ heading ∈ (parse text).keys, ∀ header, '\n' ∉ header → opened? header = some heading →
      ∃ content, (parse text).get? heading = some content ∧
        (parse (ofLines (header :: linesUnder heading ls))).entries = [(heading, content)]) ∧
    ∀ other : String, ∀ heading ∈ (parse text).keys, heading ∈ (parse other).keys →
      linesUnder heading (lines other.toList) = linesUnder heading ls →
      (parse other).get? heading = (parse text).get? heading := by
  intro ls
  have hreads : Reads ((ls.map Line.ofChars).foldl Reading.step Reading.start) ls := reads_lines ls
  have hget {heading : String} (hmem : heading ∈ (parse text).keys) :
      (parse text).get? heading = some (contentOf (linesUnder heading ls)) := hreads.get?_eq hmem
  refine ⟨hreads.keys, fun heading hmem header hrow hheader => ?_,
    fun other heading hmem hmem' hsame => ?_⟩
  · refine ⟨_, hget hmem, entries_parse_ofLines hheader hrow fun line hline => ?_⟩
    obtain ⟨hin, hopened⟩ := mem_linesUnder hline
    exact ⟨newline_notMem_of_mem_lines hin, hopened⟩
  · have hget' := (reads_lines (lines other.toList)).get?_eq hmem'
    rw [hsame] at hget'
    exact hget'.trans (hget hmem).symm

/-- The items of one list may come in two blocks with another one between them. -/
example :
    (parse "[Crew]\nNames[]=Ada\n[Hull]\nArmor=5\n[\"Crew\"]\nNames[]=Bo\n").get? "Crew" =
      some ⟨[("Names", .list ["Ada", "Bo"])]⟩ := by
  decide +kernel

end SectionCompiler.Ini
