import SectionCompiler.Proofs.Layout
import SectionCompiler.Settings.KeyLine

/-! The search for a key in settings laid out in rows. A header opens its table for the search only
when it is plain, and all registry tables are one table to it: the line that it finds is the first
one of the key in any of them. -/

namespace SectionCompiler.Settings

open Text KeyLine

/-- The line of the first of some keys that is `key`, or zero. -/
def firstLine (key : String) (keys : List (Nat × String)) : Nat :=
  ((keys.find? fun k => k.2 = key).map Prod.fst).getD 0

def plainKeys (ts : List TableRows) : List (Nat × String) :=
  (ts.filter TableRows.plain).flatMap TableRows.keys

variable {cs gap gap' : List Char} {key key' : String} {n : Nat}

/-- A line gives a value to the one key that stands in front of its equals sign. -/
theorem assigns_iff (hkey : BareKey key) (hkey' : BareKey key') (hgap : AllBlank gap)
    (tail : List Char) :
    assigns key.toList (key'.toList ++ (gap ++ '=' :: tail)) = true ↔ key' = key := by
  constructor
  · intro h
    unfold assigns at h
    split at h
    · next rest hrest =>
      have htext := isPrefixOf?_eq_some_iff.1 hrest
      obtain ⟨tail', htail'⟩ := List.head?_eq_some_iff.1 (of_decide_eq_true h)
      have hsplit : rest.takeWhile isBlank ++ trimStart rest = rest :=
        List.takeWhile_append_dropWhile
      have hblanks : AllBlank (rest.takeWhile isBlank) := fun c hc => List.mem_takeWhile_imp hc
      rw [htail'] at hsplit
      rw [← hsplit] at htext
      have hsign : Toml.isBare '=' = false := by decide
      rw [← String.toList_inj, ← hkey'.takeWhile_append (not_isBare_head? hgap hsign tail), htext,
        hkey.takeWhile_append (not_isBare_head? hblanks hsign tail')]
    · cases h
  · rintro rfl
    have hrest : key'.toList.isPrefixOf? (key'.toList ++ (gap ++ '=' :: tail)) =
        some (gap ++ '=' :: tail) := isPrefixOf?_eq_some_iff.2 rfl
    have hgap' : trimStart (gap ++ '=' :: tail) = '=' :: tail := by
      rw [trimStart, List.dropWhile_append_of_pos hgap]
      rfl
    simp [assigns, hrest, hgap']

theorem mem_trim {c : Char} (hmem : c ∈ cs) (hc : isBlank c = false) : c ∈ trim cs := by
  have hstart : c ∈ trimStart cs := by
    rw [← List.takeWhile_append_dropWhile (p := isBlank) (l := cs)] at hmem
    refine (List.mem_append.1 hmem).resolve_left fun hblank => ?_
    rw [List.mem_takeWhile_imp hblank] at hc
    cases hc
  obtain ⟨blanks, hblanks, heq⟩ := exists_eq_trimEnd_append (trimStart cs)
  rw [heq] at hstart
  refine (List.mem_append.1 hstart).resolve_right fun hblank => ?_
  rw [hblanks c hblank] at hc
  cases hc

/-- The first part of a text holds all that stands before the first dot. -/
theorem exists_splitOn_append {front : List Char} (more : List Char) (h : '.' ∉ front) :
    ∃ part parts, (front ++ more).splitOn '.' = (front ++ part) :: parts := by
  induction front with
  | nil =>
    obtain ⟨part, parts, hparts⟩ := List.exists_cons_of_ne_nil (List.splitOn_ne_nil '.' more)
    exact ⟨part, parts, hparts⟩
  | cons c front ih =>
    obtain ⟨hc, hfront⟩ := List.ne_and_not_mem_of_not_mem_cons h
    obtain ⟨part, parts, hparts⟩ := ih hfront
    refine ⟨part, parts, ?_⟩
    rw [List.cons_append, List.splitOn_cons_eq_if_modifyHead, if_neg (by simpa using hc.symm),
      hparts]
    rfl

/-- Dropping brackets at the end of a text goes no further than a comment. -/
theorem exists_dropWhile_reverse (front tail : List Char) :
    ∃ tail', ((front ++ '#' :: tail).reverse.dropWhile (· = ']')).reverse =
      front ++ '#' :: tail' := by
  have hreverse : (front ++ '#' :: tail).reverse = tail.reverse ++ '#' :: front.reverse := by simp
  rw [hreverse, List.dropWhile_append]
  split
  · exact ⟨[], by simp⟩
  · exact ⟨(tail.reverse.dropWhile (· = ']')).reverse, by simp⟩

/-- Dropping brackets in front of a name stops at its blanks, or at its first letter. -/
theorem dropWhile_open (hgap : Blanks gap) (more : List Char) :
    ('[' :: '[' :: (gap ++ ("registry".toList ++ more))).dropWhile (· = '[') =
      gap ++ ("registry".toList ++ more) := by
  rw [List.dropWhile_cons_of_pos (by decide), List.dropWhile_cons_of_pos (by decide)]
  cases gap with
  | nil => exact List.dropWhile_cons_of_neg (by decide)
  | cons c gap =>
    have hc : c ≠ '[' := fun hc => absurd (hgap c List.mem_cons_self) (by rw [hc]; decide)
    exact List.dropWhile_cons_of_neg (by simpa using hc)

theorem headerParts_plain (hgap : Blanks gap) (hgap' : Blanks gap') :
    headerParts ('[' :: '[' :: (gap ++ ("registry".toList ++ (gap' ++ [']', ']'])))) =
      ["registry".toList] := by
  have hclose : (gap ++ ("registry".toList ++ gap')).reverse.dropWhile (· = ']') =
      (gap ++ ("registry".toList ++ gap')).reverse := by
    refine List.dropWhile_eq_self_iff.2 fun h => ?_
    have hmem := List.getElem_mem h
    simp only [List.mem_reverse, List.mem_append] at hmem
    intro hclose
    rw [of_decide_eq_true hclose] at hmem
    rcases hmem with hmem | hmem | hmem
    · exact hgap.not_mem_of (by decide) hmem
    · exact absurd hmem (by decide)
    · exact hgap'.not_mem_of (by decide) hmem
  have hreverse : (gap ++ ("registry".toList ++ (gap' ++ [']', ']']))).reverse =
      ']' :: ']' :: (gap ++ ("registry".toList ++ gap')).reverse := by simp
  have htrim : trim (gap ++ ("registry".toList ++ gap')) = "registry".toList := by
    rw [← List.append_assoc, trim_append_of_allBlank _ hgap'.allBlank]
    exact trim_append_cons "egistry".toList hgap.allBlank (by decide)
  rw [headerParts, dropWhile_open hgap, hreverse, List.dropWhile_cons_of_pos (by decide),
    List.dropWhile_cons_of_pos (by decide), hclose, List.reverse_reverse, htrim]
  decide

/-- A comment behind a header becomes a part of its name. -/
theorem exists_headerParts_commented {blanks : List Char} (comment : List Char)
    (hgap : Blanks gap) (hgap' : Blanks gap') (hblanks : AllBlank blanks) :
    ∃ part parts, '#' ∈ part ∧ headerParts ('[' :: '[' :: (gap ++ ("registry".toList ++
      (gap' ++ ']' :: ']' :: (blanks ++ '#' :: comment))))) = part :: parts := by
  obtain ⟨comment', hcomment⟩ := exists_dropWhile_reverse
    (gap ++ ("registry".toList ++ (gap' ++ ']' :: ']' :: blanks))) comment
  have hname : gap ++ ("registry".toList ++ (gap' ++ ']' :: ']' :: (blanks ++ '#' :: comment))) =
      gap ++ ("registry".toList ++ (gap' ++ ']' :: ']' :: blanks)) ++ '#' :: comment := by simp
  have htrim : trim (gap ++ ("registry".toList ++ (gap' ++ ']' :: ']' :: blanks)) ++
        '#' :: comment') =
      "registry".toList ++ (gap' ++ ']' :: ']' :: (blanks ++ ['#'])) ++ trimEnd comment' := by
    have hmark := trimEnd_append_cons (c := '#')
      ("egistry".toList ++ (gap' ++ ']' :: ']' :: blanks)) comment' (by decide)
    rw [List.append_assoc]
    refine (trim_append_cons (c := 'r') _ hgap.allBlank (by decide)).trans ?_
    refine (congrArg (List.cons 'r') hmark).trans ?_
    simp
  have hdot : '.' ∉ "registry".toList ++ (gap' ++ ']' :: ']' :: (blanks ++ ['#'])) := by
    have hblanks' : '.' ∉ blanks := fun h => absurd (hblanks _ h) (by decide)
    simp [hgap'.not_mem_of (c := '.') (by decide), hblanks']
  obtain ⟨part, parts, hparts⟩ := exists_splitOn_append (trimEnd comment') hdot
  refine ⟨trim ("registry".toList ++ (gap' ++ ']' :: ']' :: (blanks ++ ['#'])) ++ part),
    parts.map trim, mem_trim (by simp) (by decide), ?_⟩
  rw [headerParts, dropWhile_open hgap, hname, hcomment, htrim, hparts]
  rfl

section Search

variable {outer : List (List Char)}

/-- The keys that the search meets in the table it looks for. -/
def Row.keysUnder (outer table : List (List Char)) (n : Nat) (rows : List Row) :
    List (Nat × String) :=
  (if table = outer then block n rows else []) ++
    (if outer = ["registry".toList] then plainKeys (tables n rows) else [])

theorem inToml_cons {t : Target} {line : List Char} {table : List (List Char)}
    (rest : List (List Char)) (hline : (trim line).head? ≠ some '[') :
    inToml t n table (line :: rest) =
      if table = t.outer ∧ assigns t.key (trim line) = true then n
      else inToml t (n + 1) table rest := by
  rw [inToml]
  exact if_neg hline

theorem inToml_header {t : Target} {line : List Char} {table : List (List Char)}
    (rest : List (List Char)) (hline : (trim line).head? = some '[') :
    inToml t n table (line :: rest) = inToml t (n + 1) (headerParts (trim line)) rest := by
  rw [inToml]
  exact if_pos hline

theorem head?_ne_of_filler {line : List Char}
    (hline : trim line = [] ∨ ∃ comment, trim line = '#' :: comment) :
    (trim line).head? ≠ some '[' := by
  rcases hline with hline | ⟨comment, hline⟩ <;> rw [hline] <;> simp

theorem head?_ne_of_entry {line more : List Char} (hkey : BareKey key)
    (hline : trim line = key.toList ++ more) : (trim line).head? ≠ some '[' := by
  obtain ⟨c, letters, hcons, hc⟩ := hkey.exists_cons
  rw [hline, hcons]
  exact fun hopen => ne_of_isBare hc (by decide) (Option.some.inj hopen)

theorem not_assigns_of_filler {line : List Char} (hkey : BareKey key)
    (hline : line = [] ∨ ∃ comment, line = '#' :: comment) : assigns key.toList line = false := by
  obtain ⟨c, letters, hcons, hc⟩ := hkey.exists_cons
  rw [hcons]
  rcases hline with rfl | ⟨comment, rfl⟩
  · rfl
  · have hne : c ≠ '#' := ne_of_isBare hc (by decide)
    simp [assigns, isPrefixOf?_cons_cons, hne]

theorem firstLine_cons (key' : String) (n : Nat) (keys : List (Nat × String)) :
    firstLine key ((n, key') :: keys) = if key' = key then n else firstLine key keys := by
  unfold firstLine
  rw [List.find?_cons]
  split <;> simp_all

theorem keysUnder_nil (table : List (List Char)) : Row.keysUnder outer table n [] = [] := by
  unfold Row.keysUnder
  split <;> split <;> rfl

theorem keysUnder_entry (table : List (List Char)) (rows : List Row) :
    Row.keysUnder outer table n (.entry key :: rows) =
      if table = outer then (n, key) :: Row.keysUnder outer table (n + 1) rows
      else Row.keysUnder outer table (n + 1) rows := by
  unfold Row.keysUnder
  by_cases h : table = outer
  · rw [if_pos h, if_pos h, if_pos h]
    rfl
  · rw [if_neg h, if_neg h, if_neg h]
    rfl

theorem plainKeys_header (plain : Bool) (rows : List Row) :
    plainKeys (Row.tables n (.header plain :: rows)) =
      (if plain = true then Row.block (n + 1) rows else []) ++
        plainKeys (Row.tables (n + 1) rows) := by
  cases plain <;> rfl

/-- Behind a header the search is in its table when that is the table it looks for. -/
theorem keysUnder_header {parts : List (List Char)} {plain : Bool} (table : List (List Char))
    (rows : List Row) (h : parts = outer ↔ plain = true ∧ outer = ["registry".toList]) :
    Row.keysUnder outer table n (.header plain :: rows) =
      Row.keysUnder outer parts (n + 1) rows := by
  have hblock : (if table = outer then Row.block n (.header plain :: rows) else []) = [] := by
    split <;> rfl
  unfold Row.keysUnder
  rw [hblock, List.nil_append]
  by_cases houter : outer = ["registry".toList]
  · rw [if_pos houter, if_pos houter, plainKeys_header]
    exact congrArg (· ++ _) (if_congr (h.trans (and_iff_left houter)).symm rfl rfl)
  · rw [if_neg houter, if_neg houter, if_neg fun hparts => houter (h.1 hparts).2, List.append_nil]

/-- The search finds the first line of the key in the tables it looks for. -/
theorem inToml_laid {rows : List Row} (hkey : BareKey key)
    (houter : ∀ part ∈ outer.head?, part = "registry".toList) (h : Laid cs rows) (n : Nat)
    (table : List (List Char)) :
    inToml ⟨key.toList, outer⟩ n table (lines cs) =
      firstLine key (Row.keysUnder outer table n rows) := by
  induction h generalizing n table with
  | nil =>
    rw [lines_nil, keysUnder_nil]
    rfl
  | filler hne hend _ ih =>
    obtain ⟨line, hlines, hline⟩ := exists_line_of_filler hne hend
    rw [hlines, inToml_cons _ (head?_ne_of_filler hline), not_assigns_of_filler hkey hline,
      if_neg (by simp), ih]
    rfl
  | @header _ _ _ after _ _ hmargin hgap hgap' hend _ ih =>
    obtain ⟨line, tail, hlines, hline, hplain, hcomment⟩ :=
      exists_line_of_header hmargin hgap hgap' hend
    rw [hlines, inToml_header _ (by rw [hline]; rfl), ih, hline]
    refine congrArg _ (keysUnder_header table _ ?_).symm
    cases h : isPlainEnd after with
    | true =>
      rw [hplain h, headerParts_plain hgap hgap']
      exact ⟨fun h => ⟨rfl, h.symm⟩, fun h => h.2.symm⟩
    | false =>
      obtain ⟨blanks, comment, hblanks, rfl⟩ := hcomment h
      obtain ⟨part, parts, hpart, hparts⟩ :=
        exists_headerParts_commented comment hgap hgap' hblanks
      rw [hparts]
      refine iff_of_false ?_ fun h => nomatch h.1
      rintro rfl
      rw [houter part rfl] at hpart
      exact absurd hpart (by decide)
  | @entry _ gap _ _ _ key' rows hmargin hkey' hgap hvalue hend _ ih =>
    obtain ⟨line, tail, hlines, hline⟩ := exists_line_of_entry hmargin hkey' hgap hvalue hend
    rw [hlines, inToml_cons _ (head?_ne_of_entry hkey' hline), ih, hline, keysUnder_entry]
    by_cases htable : table = outer
    · rw [if_pos htable, firstLine_cons]
      refine if_congr ?_ rfl rfl
      rw [assigns_iff hkey hkey' hgap.allBlank]
      exact and_iff_right htable
    · rw [if_neg htable, if_neg fun h => htable h.1]

/-- Outside the table it looks for the search finds nothing, and only a header could lead there. -/
theorem inToml_eq_zero {t : Target} {rows : List Row} (h : Laid cs rows) (m n : Nat)
    {table : List (List Char)} (hrows : Row.tables m rows = []) (htable : table ≠ t.outer) :
    inToml t n table (lines cs) = 0 := by
  induction h generalizing m n with
  | nil => simp [inToml]
  | filler hne hend _ ih =>
    obtain ⟨line, hlines, hline⟩ := exists_line_of_filler hne hend
    rw [hlines, inToml_cons _ (head?_ne_of_filler hline), if_neg fun h => htable h.1]
    exact ih (m + 1) (n + 1) hrows
  | header => cases hrows
  | entry hmargin hkey hgap hvalue hend _ ih =>
    obtain ⟨line, tail, hlines, hline⟩ := exists_line_of_entry hmargin hkey hgap hvalue hend
    rw [hlines, inToml_cons _ (head?_ne_of_entry hkey hline), if_neg fun h => htable h.1]
    exact ih (m + 1) (n + 1) hrows

end Search

theorem digits_not_mem {c : Char} (i : Nat) (hc : c.isDigit = false) : c ∉ (toString i).toList := by
  rw [Nat.toString_eq_ofList_toDigits, String.toList_ofList]
  intro hmem
  rw [Nat.isDigit_of_mem_toDigits (by decide) (by decide) hmem] at hc
  cases hc

theorem isIndex_toString (i : Nat) : isIndex (toString i).toList = decide (i < Nat.pow 2 64) := by
  have hplus := digits_not_mem i (show '+'.isDigit = false by decide)
  rw [Nat.toString_eq_ofList_toDigits, String.toList_ofList] at hplus ⊢
  have hdigits : (Nat.toDigits 10 i).all Char.isDigit = true :=
    List.all_eq_true.2 fun c hc => Nat.isDigit_of_mem_toDigits (by decide) (by decide) hc
  have hvalue := Nat.ofDigitChars_ten_toDigits (n := i)
  rw [Nat.ofDigitChars_eq_foldl] at hvalue
  unfold isIndex
  split
  · next rest hrest =>
    rw [hrest] at hplus
    exact absurd List.mem_cons_self hplus
  · have hne : decide (Nat.toDigits 10 i ≠ []) = true := decide_eq_true Nat.toDigits_ne_nil
    dsimp only
    rw [hne, hdigits, hvalue]
    rfl

theorem BareKey.splitOn (hkey : BareKey key) : key.toList.splitOn '.' = [key.toList] :=
  List.splitOnP_eq_singleton fun c hc => by
    have hdot : c ≠ '.' := by
      rintro rfl
      exact hkey.not_mem (by decide) hc
    simpa using hdot

theorem BareKey.ne_mark (hkey : BareKey key) : key.toList ≠ ['?'] := fun h =>
  hkey.not_mem (show Toml.isBare '?' = false by decide) (by simp [h])

theorem dotted_key (hkey : BareKey key) : dotted [key] = key.toList := by
  simp [dotted, List.intercalate_singleton, hkey.splitOn, hkey.ne_mark]

theorem target_key (hkey : BareKey key) : Target.of key.toList = ⟨key.toList, []⟩ := by
  simp [Target.of, hkey.splitOn]

theorem splitOn_tableKey (i : Nat) (cs : List Char) :
    ("registry".toList ++ '.' :: ((toString i).toList ++ '.' :: cs)).splitOn '.' =
      "registry".toList :: (toString i).toList :: cs.splitOn '.' := by
  rw [List.splitOn_append_cons_self_of_not_mem (by decide),
    List.splitOn_append_cons_self_of_not_mem (digits_not_mem i (by decide))]

theorem toString_ne_mark (i : Nat) : (toString i).toList ≠ ['?'] := fun h =>
  digits_not_mem i (show '?'.isDigit = false by decide) (h ▸ List.mem_singleton_self '?')

theorem dotted_tableKey (i : Nat) (key : String) :
    dotted ["registry", toString i, key] = ['.'].intercalate ("registry".toList ::
      (toString i).toList :: (key.toList.splitOn '.').filter (· ≠ ['?'])) := by
  have hjoin : ['.'].intercalate (["registry", toString i, key].map String.toList) =
      "registry".toList ++ '.' :: ((toString i).toList ++ '.' :: key.toList) := by
    simp [List.intercalate_cons_cons, List.intercalate_singleton]
  rw [dotted, hjoin, splitOn_tableKey, List.filter_cons_of_pos (by decide),
    List.filter_cons_of_pos (by simpa using toString_ne_mark i)]

theorem target_tableKey (i : Nat) (hkey : BareKey key) :
    Target.of (dotted ["registry", toString i, key]) =
      ⟨key.toList,
        "registry".toList :: if i < Nat.pow 2 64 then [] else [(toString i).toList]⟩ := by
  have hparts : (dotted ["registry", toString i, key]).splitOn '.' =
      ["registry".toList, (toString i).toList, key.toList] := by
    rw [dotted_tableKey, hkey.splitOn,
      List.filter_cons_of_pos (by simpa using hkey.ne_mark), List.filter_nil,
      List.intercalate_cons_cons, List.intercalate_cons_cons, List.intercalate_singleton,
      List.append_assoc, List.append_assoc]
    exact (splitOn_tableKey i key.toList).trans (by rw [hkey.splitOn])
  simp only [Target.of, hparts, List.getLast?_cons_cons, List.getLast?_singleton, Option.getD_some,
    List.dropLast_cons_cons, List.dropLast_singleton]
  rw [List.filter_cons_of_pos (by decide)]
  have hindex := isIndex_toString i
  by_cases hi : i < Nat.pow 2 64
  · rw [decide_eq_true hi] at hindex
    rw [if_pos hi, List.filter_cons_of_neg (by rw [hindex]; simp), List.filter_nil]
  · rw [decide_eq_false hi] at hindex
    have hmark := toString_ne_mark i
    rw [if_neg hi, List.filter_cons_of_pos (by rw [hindex]; simpa using hmark), List.filter_nil]

/-- The tables around any key of a registry table begin with the registry. -/
theorem head?_outer (i : Nat) (key : String) :
    (Target.of (dotted ["registry", toString i, key])).outer.head? = some "registry".toList := by
  obtain ⟨part, parts, hparts⟩ := List.exists_cons_of_ne_nil (List.splitOn_ne_nil '.'
    (['.'].intercalate ((toString i).toList :: (key.toList.splitOn '.').filter (· ≠ ['?']))))
  have hsplit : (dotted ["registry", toString i, key]).splitOn '.' =
      "registry".toList :: part :: parts := by
    rw [dotted_tableKey, List.intercalate_cons_cons, ← hparts, List.append_assoc]
    exact List.splitOn_append_cons_self_of_not_mem (by decide) _
  unfold Target.of
  rw [hsplit]
  dsimp only
  rw [List.dropLast_cons_cons, List.filter_cons_of_pos (by decide)]
  rfl

/-- A key before the first header is found where it stands. -/
theorem tomlLine_key {rows : List Row} (hkey : BareKey key) (h : Laid cs rows) :
    tomlLine cs (dotted [key]) = firstLine key (Row.block 1 rows) := by
  rw [tomlLine, dotted_key hkey, target_key hkey, inToml_laid hkey (by simp) h, Row.keysUnder,
    if_pos rfl, if_neg nofun, List.append_nil]

/-- A key of a registry table is looked for in all of them. -/
theorem tomlLine_tableKey {rows : List Row} (i : Nat) (hkey : BareKey key) (h : Laid cs rows) :
    tomlLine cs (dotted ["registry", toString i, key]) =
      if i < Nat.pow 2 64 then firstLine key (plainKeys (Row.tables 1 rows)) else 0 := by
  have houter : ∀ others, ∀ part ∈ ("registry".toList :: others).head?,
      part = "registry".toList := fun others part hpart => (Option.some.inj hpart).symm
  rw [tomlLine, target_tableKey i hkey, inToml_laid hkey (houter _) h, Row.keysUnder,
    if_neg (List.cons_ne_nil _ _).symm, List.nil_append]
  by_cases hi : i < Nat.pow 2 64
  · rw [if_pos hi, if_pos hi, if_pos rfl]
  · rw [if_neg hi, if_neg hi, if_neg (by simp)]
    rfl

theorem tomlLine_eq_zero {rows : List Row} (i : Nat) (key : String) (h : Laid cs rows)
    (hrows : Row.tables 1 rows = []) :
    tomlLine cs (dotted ["registry", toString i, key]) = 0 := by
  refine inToml_eq_zero h 1 1 hrows fun houter => ?_
  have hhead := head?_outer i key
  rw [← houter] at hhead
  cases hhead

end SectionCompiler.Settings
