import SectionCompiler.Ini.Writer
import SectionCompiler.Proofs.Quoted

/-! What the writer's lines say to the reader. A text that needs no quotes holds none of the
characters that mean something to the reader, so a written text is taken for itself wherever it
stands in its line. A header line is always read back; the line of an entry is, unless a bare key
ends in brackets; the line of an item is, unless it looks like a header. -/

namespace SectionCompiler.Ini

open Text

/-- A text that the reader takes for itself. -/
structure Bare (cs : List Char) : Prop where
  equals : '=' ∉ cs
  semicolon : ';' ∉ cs
  isLine : IsLine cs
  head : ∀ c ∈ cs.head?, c ∉ ['[', '"', '\'', '#']
  trimmed : Trimmed cs

theorem bare_of_needsQuotes {cs : List Char} (h : needsQuotes cs = false) : Bare cs := by
  simp only [needsQuotes, Bool.or_eq_false_iff, List.any_eq_false] at h
  obtain ⟨⟨hany, hhead⟩, htrim⟩ := h
  have hmark (mark : Char) (hm : mark ∈ cs) :
      mark ≠ '=' ∧ mark ≠ ';' ∧ mark ≠ '\r' ∧ mark ≠ '\n' := by
    simpa [and_assoc] using hany mark hm
  refine ⟨fun hm => (hmark _ hm).1 rfl, fun hm => (hmark _ hm).2.1 rfl,
    ⟨fun hm => (hmark _ hm).2.2.2 rfl, fun hm => (hmark _ hm).2.2.1 rfl⟩, fun c hc => ?_, ?_⟩
  · rw [Option.mem_def.1 hc] at hhead
    simpa [and_assoc] using hhead
  · exact trim_eq_self_iff.1 (by simpa using htrim)

/-- A text is written in quotes when it needs them, and as it is when it is bare. -/
theorem written_cases (cs : List Char) :
    (needsQuotes cs = true ∧ written cs = Quoted.encode cs) ∨
      (needsQuotes cs = false ∧ Bare cs ∧ written cs = cs) := by
  unfold written
  cases h : needsQuotes cs with
  | true => exact Or.inl ⟨rfl, rfl⟩
  | false => exact Or.inr ⟨rfl, bare_of_needsQuotes h, rfl⟩

theorem isLine_written (cs : List Char) : IsLine (written cs) := by
  rcases written_cases cs with ⟨-, h⟩ | ⟨-, hb, h⟩
  · exact h ▸ Quoted.isLine_encode cs
  · exact h.symm ▸ hb.isLine

theorem trimmed_written (cs : List Char) : Trimmed (written cs) := by
  rcases written_cases cs with ⟨-, h⟩ | ⟨-, hb, h⟩
  · rw [h, Quoted.encode]
    refine ⟨fun c hc => ?_, fun c hc => ?_⟩
    · obtain rfl := Option.some.inj hc
      decide
    · rw [← List.cons_append, List.getLast?_concat] at hc
      obtain rfl := Option.some.inj hc
      decide
  · exact h.symm ▸ hb.trimmed

theorem trim_written (cs : List Char) : trim (written cs) = written cs :=
  trim_eq_self_iff.2 (trimmed_written cs)

theorem unquote_written (cs : List Char) : unquote (written cs) = cs := by
  rcases written_cases cs with ⟨-, h⟩ | ⟨-, hb, h⟩
  · rw [h, unquote, if_pos, Quoted.decode_encode, Option.getD_some]
    simp [Quoted.encode, List.getLast?_cons]
  · have hd : cs.head? ≠ some '"' := fun hc => absurd (hb.head _ hc) (by decide)
    have hs : cs.head? ≠ some '\'' := fun hc => absurd (hb.head _ hc) (by decide)
    rw [h, unquote, if_neg (by simp [hd]), if_neg (by simp [hs])]

theorem written_eq_nil_iff {cs : List Char} : written cs = [] ↔ cs = [] := by
  constructor
  · intro h
    rw [← unquote_written cs, h]
    rfl
  · rintro rfl
    rfl

theorem beforeComment?_eq_none {cs : List Char} (h : ';' ∉ cs) : beforeComment? cs = none := by
  induction cs with
  | nil => rfl
  | cons a rest ih =>
    cases rest with
    | nil => rfl
    | cons b rest =>
      obtain ⟨-, hrest⟩ := List.ne_and_not_mem_of_not_mem_cons h
      have hb : b ≠ ';' := fun he => hrest (he ▸ List.mem_cons_self)
      rw [beforeComment?, if_neg (fun hc => hb hc.2), ih hrest, Option.map_none]

theorem dropComment_written (cs : List Char) : dropComment (written cs) = written cs := by
  rcases written_cases cs with ⟨-, h⟩ | ⟨-, hb, h⟩
  · exact h ▸ if_pos rfl
  · have hd : cs.head? ≠ some '"' := fun hc => absurd (hb.head _ hc) (by decide)
    rw [h, dropComment, if_neg hd, beforeComment?_eq_none hb.semicolon]

/-- A written text is empty or begins with a character that opens neither a header nor a
comment. -/
theorem head_written {cs : List Char} {c : Char} (h : c ∈ (written cs).head?) :
    c ∉ ['[', ';', '#'] := by
  rcases written_cases cs with ⟨-, hw⟩ | ⟨-, hb, hw⟩
  · rw [hw] at h
    obtain rfl := Option.some.inj h
    decide
  · rw [hw] at h
    have hsemi : c ≠ ';' := fun he => hb.semicolon (he ▸ List.mem_of_head? h)
    have hmarks := hb.head c h
    simp only [List.mem_cons, List.not_mem_nil, or_false, not_or] at hmarks ⊢
    exact ⟨hmarks.1, hsemi, hmarks.2.2.2⟩

theorem suffix_written_iff {cs : List Char} (front : List Char) {last : Char} (hq : last ≠ '"') :
    front ++ [last] <:+ written cs ↔ needsQuotes cs = false ∧ front ++ [last] <:+ cs := by
  rcases written_cases cs with ⟨hn, h⟩ | ⟨hn, -, h⟩
  · simp only [hn, h, Bool.true_eq_false, false_and, iff_false]
    rintro ⟨before, hb⟩
    have hlast := congrArg List.getLast? hb
    rw [← List.append_assoc, List.getLast?_concat, Quoted.encode, ← List.cons_append,
      List.getLast?_concat] at hlast
    exact hq (Option.some.inj hlast)
  · rw [h, hn, and_iff_right rfl]

theorem head_written_append {cs after : List Char} {c d : Char}
    (h : d ∈ (written cs ++ c :: after).head?) : d ∉ ['[', ';', '#'] ∨ cs = [] ∧ d = c := by
  cases hw : written cs with
  | nil =>
    rw [hw] at h
    exact Or.inr ⟨written_eq_nil_iff.1 hw, (Option.some.inj h).symm⟩
  | cons b rest =>
    rw [hw] at h
    obtain rfl := Option.some.inj h
    exact Or.inl (head_written (by rw [hw]; rfl))

/-- What may stand between a written key and the equals sign: the mark of a list, or nothing. -/
def IsMark (mark : List Char) : Prop := mark = [] ∨ mark = ['[', ']']

theorem trimmed_written_append {mark : List Char} (hm : IsMark mark) (cs : List Char) :
    Trimmed (written cs ++ mark) := by
  rcases hm with rfl | rfl
  · rw [List.append_nil]
    exact trimmed_written cs
  · exact (trimmed_written cs).append_cons (by decide)
      (trimmed_nil.append_cons (by decide) trimmed_nil)

theorem keyValue?_encode {mark : List Char} (he : '=' ∉ mark) (key after : List Char) :
    keyValue? (Quoted.encode key ++ mark ++ '=' :: after) =
      some (trim (Quoted.encode key ++ mark), trim after) := by
  have hcut : cutAfterQuote (key.flatMap Quoted.encodeChar ++ '"' :: (mark ++ '=' :: after)) =
      some (key.flatMap Quoted.encodeChar ++ ['"'], mark ++ '=' :: after) :=
    cutAfterQuote_encode key _
  simp only [Quoted.encode, List.cons_append, List.append_assoc, List.nil_append]
  simp only [keyValue?, hcut, cutAt_append _ he, Option.bind_eq_bind, Option.bind_some,
    Option.pure_def, List.append_assoc, List.singleton_append]

theorem keyValue?_bare {before after : List Char} (he : '=' ∉ before)
    (hq : (before ++ '=' :: after).head? ≠ some '"') :
    keyValue? (before ++ '=' :: after) = some (trim before, trim after) := by
  unfold keyValue?
  split
  · next rest hrest => exact absurd (congrArg List.head? hrest) hq
  · rw [cutAt_append _ he]
    rfl

/-- Around the equals sign of a written line stand its key and its value. -/
theorem keyValue?_written {mark : List Char} (hm : IsMark mark) (key text : List Char) :
    keyValue? (written key ++ mark ++ '=' :: written text) =
      some (written key ++ mark, written text) := by
  have htrim := trim_eq_self_iff.2 (trimmed_written_append hm key)
  have he : '=' ∉ mark := by
    rcases hm with rfl | rfl
    · decide
    · decide
  rcases written_cases key with ⟨-, h⟩ | ⟨-, hb, h⟩
  · rw [h] at htrim ⊢
    rw [keyValue?_encode he, htrim, trim_written]
  · rw [h] at htrim ⊢
    have hkey : '=' ∉ key ++ mark := by simp [hb.equals, he]
    have hhead : (key ++ mark ++ '=' :: written text).head? ≠ some '"' := by
      intro hc
      cases key with
      | nil =>
        rcases hm with rfl | rfl
        · exact absurd hc (by simp)
        · exact absurd hc (by simp)
      | cons c rest => exact absurd (hb.head _ hc) (by decide)
    rw [keyValue?_bare hkey hhead, htrim, trim_written]

/-! The lines of the writer without their ends, and what the reader takes them for. -/

def headerRow (heading : String) : List Char := '[' :: (writtenText heading ++ [']'])

def scalarRow (key text : String) : List Char := writtenText key ++ '=' :: writtenText text

def itemRow (key item : String) : List Char :=
  writtenText key ++ '[' :: ']' :: '=' :: writtenText item

def IsBracketed (key : String) : Prop :=
  needsQuotes key.toList = false ∧ ['[', ']'] <:+ key.toList

/-- An item under the empty key whose line looks like a header. -/
def LooksLikeHeader (key item : String) : Prop :=
  key = "" ∧ needsQuotes item.toList = false ∧ [']'] <:+ item.toList

theorem ofTrimmed_eq {cs : List Char} (hne : cs ≠ []) (hh : ∀ c ∈ cs.head?, c ∉ [';', '#']) :
    Line.ofTrimmed cs = match Line.heading? cs with
      | some heading => .header (String.ofList heading)
      | none =>
        match keyValue? cs with
        | some (key, value) => Line.ofKeyValue key (unquote (dropComment value))
        | none => Line.ofKeyValue cs "true".toList := by
  refine if_neg ?_
  rintro (h | h | h)
  · exact hne h
  · exact absurd (hh _ h) (by decide)
  · exact absurd (hh _ h) (by decide)

theorem ofChars_headerRow (heading : String) :
    Line.ofChars (headerRow heading) = .header heading := by
  have ht : Trimmed (headerRow heading) :=
    trimmed_nil.append_cons (by decide) ((trimmed_written _).append_cons (by decide) trimmed_nil)
  have hheading : Line.heading? (headerRow heading) = some heading.toList := by
    rw [headerRow, Line.heading?, dropSuffix?_append, Option.map_some, writtenText, trim_written,
      unquote_written]
  rw [Line.ofChars, trim_eq_self_iff.2 ht, ofTrimmed_eq (by simp [headerRow]) (by simp [headerRow]),
    hheading]
  exact congrArg Line.header String.ofList_toList

theorem ofChars_keyed {mark : List Char} (hm : IsMark mark) (key text : List Char)
    (hh : Line.heading? (written key ++ mark ++ '=' :: written text) = none) :
    Line.ofChars (written key ++ mark ++ '=' :: written text) =
      Line.ofKeyValue (written key ++ mark) text := by
  have ht : Trimmed (written key ++ mark ++ '=' :: written text) :=
    (trimmed_written_append hm key).append_cons (by decide) (trimmed_written text)
  have hhead : ∀ c ∈ (written key ++ mark ++ '=' :: written text).head?, c ∉ [';', '#'] := by
    intro c hc hmem
    rcases hm with rfl | rfl
    · rw [List.append_nil] at hc
      rcases head_written_append hc with hn | ⟨-, rfl⟩
      · exact hn (List.mem_cons_of_mem _ hmem)
      · exact absurd hmem (by decide)
    · rw [List.append_assoc] at hc
      rcases head_written_append hc with hn | ⟨-, rfl⟩
      · exact hn (List.mem_cons_of_mem _ hmem)
      · exact absurd hmem (by decide)
  rw [Line.ofChars, trim_eq_self_iff.2 ht, ofTrimmed_eq (by simp) hhead, hh, keyValue?_written hm]
  dsimp only
  rw [dropComment_written, unquote_written]

theorem heading?_eq_none {cs : List Char} (h : cs.head? ≠ some '[') : Line.heading? cs = none := by
  unfold Line.heading?
  split
  · exact absurd rfl h
  · rfl

theorem ofChars_scalarRow_eq (key text : String) :
    Line.ofChars (scalarRow key text) = Line.ofKeyValue (writtenText key) text.toList := by
  have hhead : (written key.toList ++ '=' :: written text.toList).head? ≠ some '[' := by
    intro hc
    rcases head_written_append hc with hn | ⟨-, he⟩
    · exact hn List.mem_cons_self
    · exact absurd he (by decide)
  have h := ofChars_keyed (Or.inl rfl) key.toList text.toList
    (by rw [List.append_nil]; exact heading?_eq_none hhead)
  rwa [List.append_nil] at h

theorem ofChars_scalarRow {key : String} (text : String) (h : ¬ IsBracketed key) :
    Line.ofChars (scalarRow key text) = .entry key text := by
  have hnone : dropSuffix? ['[', ']'] (writtenText key) = none := by
    rw [dropSuffix?_eq_none_iff]
    exact fun hs => h ((suffix_written_iff ['['] (by decide)).1 hs)
  rw [ofChars_scalarRow_eq, Line.ofKeyValue, hnone]
  dsimp only
  rw [writtenText, unquote_written, String.ofList_toList, String.ofList_toList]

theorem ofChars_scalarRow_of_isBracketed {key : String} (text : String) (h : IsBracketed key) :
    ∃ list, Line.ofChars (scalarRow key text) = .item list text := by
  obtain ⟨list, hlist⟩ := (suffix_written_iff ['['] (by decide)).2 h
  have hdrop : dropSuffix? ['[', ']'] (writtenText key) = some list :=
    dropSuffix?_eq_some_iff.2 hlist.symm
  rw [ofChars_scalarRow_eq, Line.ofKeyValue, hdrop]
  exact ⟨_, by rw [String.ofList_toList]⟩

theorem itemRow_empty (item : String) :
    itemRow "" item = '[' :: ']' :: '=' :: writtenText item := rfl

/-- The line of an item is read as a header exactly when it looks like one. -/
theorem heading?_itemRow_eq_none_iff {key item : String} :
    Line.heading? (itemRow key item) = none ↔ ¬ LooksLikeHeader key item := by
  by_cases hk : key = ""
  · subst hk
    have hsuffix : [']'] <:+ ']' :: '=' :: written item.toList ↔
        needsQuotes item.toList = false ∧ [']'] <:+ item.toList := by
      rw [List.suffix_cons_iff, List.suffix_cons_iff]
      simpa using suffix_written_iff [] (show ']' ≠ '"' by decide)
    rw [LooksLikeHeader, and_iff_right rfl, ← hsuffix, ← dropSuffix?_eq_none_iff, itemRow_empty,
      Line.heading?, Option.map_eq_none_iff, writtenText]
  · have hhead : (itemRow key item).head? ≠ some '[' := by
      intro hc
      rcases head_written_append hc with hn | ⟨hnil, -⟩
      · exact hn List.mem_cons_self
      · exact hk (String.toList_eq_nil_iff.1 hnil)
    simp [heading?_eq_none hhead, LooksLikeHeader, hk]

theorem ofChars_itemRow {key item : String} (h : ¬ LooksLikeHeader key item) :
    Line.ofChars (itemRow key item) = .item key item := by
  have hrow : itemRow key item =
      written key.toList ++ ['[', ']'] ++ '=' :: written item.toList := by
    simp [itemRow, writtenText]
  rw [hrow, ofChars_keyed (Or.inr rfl) _ _ (hrow ▸ heading?_itemRow_eq_none_iff.2 h),
    Line.ofKeyValue, dropSuffix?_append]
  dsimp only
  rw [trim_written, unquote_written, String.ofList_toList, String.ofList_toList]

theorem ofChars_itemRow_of_looksLikeHeader {key item : String} (h : LooksLikeHeader key item) :
    ∃ heading, Line.ofChars (itemRow key item) = .header heading := by
  have ht : Trimmed (itemRow key item) :=
    (trimmed_written _).append_cons (by decide) <| trimmed_nil.append_cons (by decide) <|
      trimmed_nil.append_cons (by decide) (trimmed_written _)
  cases hheading : Line.heading? (itemRow key item) with
  | none => exact absurd h (heading?_itemRow_eq_none_iff.1 hheading)
  | some heading =>
    obtain ⟨rfl, -⟩ := h
    refine ⟨String.ofList heading, ?_⟩
    rw [Line.ofChars, trim_eq_self_iff.2 ht,
      ofTrimmed_eq (by simp [itemRow_empty]) (by simp [itemRow_empty]), hheading]

end SectionCompiler.Ini
