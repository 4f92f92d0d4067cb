import SectionCompiler.Proofs.Text
import SectionCompiler.Toml.Parse

/-! Settings laid out in rows, one to a line: blank rows and comments, headers of registry tables,
and keys with values that end on their line. The rows tell which keys a text has, in which table
and on which line each of them stands, and the lines of the text are those of its rows. -/

namespace SectionCompiler.Settings

inductive Row where
  /-- Nothing, or a comment. -/
  | filler
  /-- The header of a registry table. No comment stands behind a plain one. -/
  | header (plain : Bool)
  /-- A key with its value. -/
  | entry (key : String)
  deriving DecidableEq, Repr

structure BareKey (key : String) : Prop where
  ne : key ≠ ""
  bare : ∀ c ∈ key.toList, Toml.isBare c = true

def Blanks (cs : List Char) : Prop := ∀ c ∈ cs, Toml.isBlank c = true

/-- Whether no comment comes before the line ends. -/
def isPlainEnd (cs : List Char) : Bool := (Toml.skipBlanks cs).head? ≠ some '#'

/-- The text begins with a value that ends on its line, and `after` follows the value. -/
def HasValue (text after : List Char) : Prop :=
  ∃ v written, text = written ++ after ∧ '\n' ∉ written ∧
    Toml.value? (2 * text.length + 2) (Toml.depthLimit - 1) text = some (v, after)

/-- A text that is laid out in rows. Each row goes to the end of its line. -/
inductive Laid : List Char → List Row → Prop where
  | nil : Laid [] []
  | filler {cs rest : List Char} {rows : List Row} (hne : cs ≠ [])
      (hend : Toml.lineEnd? cs = some rest) : Laid rest rows → Laid cs (.filler :: rows)
  | header {margin gap gap' after rest : List Char} {rows : List Row} (hmargin : Blanks margin)
      (hgap : Blanks gap) (hgap' : Blanks gap') (hend : Toml.lineEnd? after = some rest) :
      Laid rest rows →
      Laid (margin ++ '[' :: '[' :: (gap ++ ("registry".toList ++ (gap' ++ ']' :: ']' :: after))))
        (.header (isPlainEnd after) :: rows)
  | entry {margin gap text after rest : List Char} {key : String} {rows : List Row}
      (hmargin : Blanks margin) (hkey : BareKey key) (hgap : Blanks gap)
      (hvalue : HasValue (Toml.skipBlanks text) after) (hend : Toml.lineEnd? after = some rest) :
      Laid rest rows →
      Laid (margin ++ (key.toList ++ (gap ++ '=' :: text))) (.entry key :: rows)

/-- A registry table as its rows give it: whether its header is plain, and its keys, each after its
line. -/
structure TableRows where
  plain : Bool
  keys : List (Nat × String)
  deriving DecidableEq, Repr

namespace Row

/-- The keys down to the next header, each after its line. The first row is on line `n`. -/
def block : Nat → List Row → List (Nat × String)
  | n, filler :: rows => block (n + 1) rows
  | n, entry key :: rows => (n, key) :: block (n + 1) rows
  | _, _ => []

def tables : Nat → List Row → List TableRows
  | _, [] => []
  | n, header plain :: rows => ⟨plain, block (n + 1) rows⟩ :: tables (n + 1) rows
  | n, _ :: rows => tables (n + 1) rows

end Row

open Text

variable {cs rest row margin gap gap' after : List Char} {key : String}

theorem Blanks.allBlank (h : Blanks cs) : AllBlank cs := by
  intro c hc
  have hc := h c hc
  simp only [Toml.isBlank, Bool.or_eq_true, decide_eq_true_eq] at hc
  rcases hc with rfl | rfl <;> decide

theorem Blanks.not_mem_of {c : Char} (h : Blanks cs) (hc : Toml.isBlank c = false) : c ∉ cs := by
  intro hmem
  rw [h c hmem] at hc
  cases hc

theorem Blanks.not_mem (h : Blanks cs) : '\n' ∉ cs := h.not_mem_of (by decide)

theorem newline?_eq_some (h : Toml.newline? cs = some rest) :
    ∃ mark, AllBlank mark ∧ '\n' ∉ mark ∧ cs = mark ++ '\n' :: rest := by
  unfold Toml.newline? at h
  split at h
  · obtain rfl := Option.some.inj h
    exact ⟨[], fun c hc => absurd hc List.not_mem_nil, List.not_mem_nil, rfl⟩
  · obtain rfl := Option.some.inj h
    exact ⟨['\r'], allBlank_singleton (by decide), by decide, rfl⟩
  · cases h

/-- A row goes up to a line feed, or to the end of the text. -/
def IsFollowed (row rest cs : List Char) : Prop :=
  cs = row ++ '\n' :: rest ∨ cs = row ∧ rest = []

theorem IsFollowed.append (h : IsFollowed row rest cs) (more : List Char) :
    IsFollowed (more ++ row) rest (more ++ cs) := by
  rcases h with rfl | ⟨rfl, rfl⟩
  · exact .inl (List.append_assoc _ _ _).symm
  · exact .inr ⟨rfl, rfl⟩

theorem exists_mark_of_lineEnd? (h : Toml.lineEnd? cs = some rest) :
    ∃ mark, AllBlank mark ∧ '\n' ∉ mark ∧
      IsFollowed mark rest (Toml.skipComment (Toml.skipBlanks cs)) := by
  unfold Toml.lineEnd? at h
  split at h
  · next hnil =>
    exact ⟨[], fun c hc => absurd hc List.not_mem_nil, List.not_mem_nil,
      .inr ⟨hnil, (Option.some.inj h).symm⟩⟩
  · obtain ⟨mark, hmark, hn, heq⟩ := newline?_eq_some h
    exact ⟨mark, hmark, hn, .inl heq⟩

theorem skipComment_of_head? (h : cs.head? ≠ some '#') : Toml.skipComment cs = cs := by
  unfold Toml.skipComment
  split
  · exact absurd rfl h
  · rfl

/-- What the end of a line holds: blanks, and a comment behind them unless the end is plain. -/
theorem exists_row_of_lineEnd? (h : Toml.lineEnd? cs = some rest) :
    ∃ row, '\n' ∉ row ∧ IsFollowed row rest cs ∧ (isPlainEnd cs = true → AllBlank row) ∧
      (isPlainEnd cs = false →
        ∃ blanks comment, AllBlank blanks ∧ row = blanks ++ '#' :: comment) := by
  have hsplit : cs.takeWhile Toml.isBlank ++ Toml.skipBlanks cs = cs :=
    List.takeWhile_append_dropWhile
  have hblanks : Blanks (cs.takeWhile Toml.isBlank) := fun c hc => List.mem_takeWhile_imp hc
  obtain ⟨mark, hmark, hn, hfollowed⟩ := exists_mark_of_lineEnd? h
  cases hplain : isPlainEnd cs with
  | true =>
    rw [skipComment_of_head? (of_decide_eq_true hplain)] at hfollowed
    refine ⟨cs.takeWhile Toml.isBlank ++ mark, by simp [hblanks.not_mem, hn], ?_,
      fun _ => hblanks.allBlank.append hmark, nofun⟩
    have happend := hfollowed.append (cs.takeWhile Toml.isBlank)
    rwa [hsplit] at happend
  | false =>
    obtain ⟨comment, hcomment⟩ := List.head?_eq_some_iff.1
      (Decidable.not_not.1 (of_decide_eq_false hplain))
    rw [hcomment] at hfollowed hsplit
    have hprint : '\n' ∉ comment.takeWhile Toml.isPrintable := fun hc =>
      absurd (List.mem_takeWhile_imp hc) (by decide)
    refine ⟨cs.takeWhile Toml.isBlank ++ '#' :: (comment.takeWhile Toml.isPrintable ++ mark),
      by simp [hblanks.not_mem, hprint, hn], ?_, nofun, fun _ => ⟨_, _, hblanks.allBlank, rfl⟩⟩
    have happend := (hfollowed.append ('#' :: comment.takeWhile Toml.isPrintable)).append
      (cs.takeWhile Toml.isBlank)
    rwa [List.cons_append, Toml.skipComment, List.cons_append, List.takeWhile_append_dropWhile,
      hsplit] at happend

theorem exists_lines_cons (hrow : '\n' ∉ row) (h : IsFollowed row rest cs) (hne : cs ≠ []) :
    ∃ line, trim line = trim row ∧ lines cs = line :: lines rest := by
  rcases h with rfl | ⟨rfl, rfl⟩
  · obtain ⟨line, hline, hlines⟩ := exists_lines_row hrow
    refine ⟨line, ?_, hlines rest⟩
    rcases hline with rfl | rfl
    · rfl
    · exact (trim_append_of_allBlank line (allBlank_singleton (by decide))).symm
  · exact ⟨cs, rfl, by rw [lines_eq_singleton hrow hne, lines_nil]⟩

theorem trim_append_cons {c : Char} (more : List Char) (hmargin : AllBlank margin)
    (hc : isBlank c = false) : trim (margin ++ c :: more) = c :: trimEnd more := by
  have hc' : isBlank c ≠ true := by simp [hc]
  rw [trim, trimStart, List.dropWhile_append_of_pos hmargin, List.dropWhile_cons_of_neg hc']
  exact trimEnd_append_cons [] more hc

theorem trimEnd_eq_nil (h : AllBlank cs) : trimEnd cs = [] := by
  have hempty := trimEnd_append_of_allBlank [] h
  rwa [List.nil_append] at hempty

theorem isBare_bounds {c : Char} (h : Toml.isBare c = true) : 45 ≤ c.toNat ∧ c.toNat ≤ 122 := by
  unfold Toml.isBare at h
  delta Char.isAlphanum Char.isAlpha Char.isUpper Char.isLower Char.isDigit at h
  simp only [Bool.or_eq_true, Bool.and_eq_true, decide_eq_true_eq] at h
  rcases h with (((⟨h, h'⟩ | ⟨h, h'⟩) | ⟨h, h'⟩) | rfl) | rfl
  · exact ⟨Nat.le_trans (by decide) h, Nat.le_trans h' (by decide)⟩
  · exact ⟨Nat.le_trans (by decide) h, Nat.le_trans h' (by decide)⟩
  · exact ⟨Nat.le_trans (by decide) h, Nat.le_trans h' (by decide)⟩
  · decide
  · decide

theorem not_isBlank_of_isBare {c : Char} (h : Toml.isBare c = true) : isBlank c = false := by
  obtain ⟨hlow, hhigh⟩ := isBare_bounds h
  have hranges : ∀ r ∈ blankRanges, r.1 ≤ c.toNat → r.2 < c.toNat := by
    simp only [blankRanges, List.forall_mem_cons, List.not_mem_nil, IsEmpty.forall_iff,
      implies_true, and_true]
    omega
  simpa [isBlank] using hranges

theorem ne_of_isBare {c mark : Char} (hc : Toml.isBare c = true)
    (hmark : Toml.isBare mark = false) : c ≠ mark := by
  rintro rfl
  rw [hc] at hmark
  cases hmark

theorem bareKey_of_all (hne : key ≠ "") (hall : key.toList.all Toml.isBare = true) :
    BareKey key := ⟨hne, List.all_eq_true.1 hall⟩

theorem BareKey.exists_cons (hkey : BareKey key) :
    ∃ c letters, key.toList = c :: letters ∧ Toml.isBare c = true := by
  obtain ⟨c, letters, hcons⟩ := List.exists_cons_of_ne_nil (String.toList_eq_nil_iff.not.2 hkey.ne)
  exact ⟨c, letters, hcons, hkey.bare c (by simp [hcons])⟩

theorem BareKey.not_mem {c : Char} (hkey : BareKey key) (hc : Toml.isBare c = false) :
    c ∉ key.toList := fun hmem => ne_of_isBare (hkey.bare c hmem) hc rfl

theorem BareKey.takeWhile_append {more : List Char} (hkey : BareKey key)
    (hmore : ∀ c ∈ more.head?, Toml.isBare c = false) :
    (key.toList ++ more).takeWhile Toml.isBare = key.toList := by
  rw [List.takeWhile_append_of_pos hkey.bare]
  cases more with
  | nil => simp
  | cons c more => rw [List.takeWhile_cons_of_neg (by simp [hmore c rfl]), List.append_nil]

/-- A key does not go on at blanks and a mark behind them. -/
theorem not_isBare_head? {c : Char} (hgap : AllBlank gap) (hc : Toml.isBare c = false)
    (more : List Char) : ∀ b ∈ (gap ++ c :: more).head?, Toml.isBare b = false := by
  intro b hb
  cases gap with
  | nil =>
    obtain rfl := Option.some.inj hb
    exact hc
  | cons d gap =>
    obtain rfl := Option.some.inj hb
    by_contra hbare
    have hblank := hgap d List.mem_cons_self
    rw [not_isBlank_of_isBare (Bool.not_eq_false _ ▸ hbare)] at hblank
    cases hblank

/-- A row of no key is blank or a comment when it is trimmed. -/
theorem exists_line_of_filler (hne : cs ≠ []) (hend : Toml.lineEnd? cs = some rest) :
    ∃ line, lines cs = line :: lines rest ∧
      (trim line = [] ∨ ∃ comment, trim line = '#' :: comment) := by
  obtain ⟨row, hn, hfollowed, hplain, hcomment⟩ := exists_row_of_lineEnd? hend
  obtain ⟨line, hline, hlines⟩ := exists_lines_cons hn hfollowed hne
  refine ⟨line, hlines, ?_⟩
  rw [hline]
  cases h : isPlainEnd cs with
  | true => exact .inl (by rw [trim, trimStart_eq_nil_iff.2 (hplain h), trimEnd_nil])
  | false =>
    obtain ⟨blanks, comment, hblanks, rfl⟩ := hcomment h
    exact .inr ⟨_, trim_append_cons comment hblanks (by decide)⟩

theorem exists_line_of_header (hmargin : Blanks margin) (hgap : Blanks gap) (hgap' : Blanks gap')
    (hend : Toml.lineEnd? after = some rest) :
    ∃ line tail,
      lines (margin ++ '[' :: '[' :: (gap ++ ("registry".toList ++
        (gap' ++ ']' :: ']' :: after)))) = line :: lines rest ∧
      trim line = '[' :: '[' :: (gap ++ ("registry".toList ++ (gap' ++ ']' :: ']' :: tail))) ∧
      (isPlainEnd after = true → tail = []) ∧
      (isPlainEnd after = false →
        ∃ blanks comment, AllBlank blanks ∧ tail = blanks ++ '#' :: comment) := by
  obtain ⟨row, hn, hfollowed, hplain, hcomment⟩ := exists_row_of_lineEnd? hend
  have happend := hfollowed.append
    (margin ++ '[' :: '[' :: (gap ++ ("registry".toList ++ (gap' ++ [']', ']']))))
  simp only [List.append_assoc, List.cons_append, List.nil_append] at happend
  obtain ⟨line, hline, hlines⟩ := exists_lines_cons
    (by simp [hmargin.not_mem, hgap.not_mem, hgap'.not_mem, hn]) happend (by simp)
  refine ⟨line, trimEnd row, hlines, ?_, fun h => trimEnd_eq_nil (hplain h), fun h => ?_⟩
  · rw [hline, trim_append_cons _ hmargin.allBlank (by decide)]
    have hclose : ∀ before, trimEnd (before ++ ']' :: row) = before ++ ']' :: trimEnd row :=
      fun before => trimEnd_append_cons before row (by decide)
    simpa using hclose ('[' :: (gap ++ ("registry".toList ++ (gap' ++ [']']))))
  · obtain ⟨blanks, comment, hblanks, rfl⟩ := hcomment h
    exact ⟨blanks, trimEnd comment, hblanks, trimEnd_append_cons _ _ (by decide)⟩

theorem exists_line_of_entry {text : List Char} (hmargin : Blanks margin) (hkey : BareKey key)
    (hgap : Blanks gap) (hvalue : HasValue (Toml.skipBlanks text) after)
    (hend : Toml.lineEnd? after = some rest) :
    ∃ line tail, lines (margin ++ (key.toList ++ (gap ++ '=' :: text))) = line :: lines rest ∧
      trim line = key.toList ++ (gap ++ '=' :: tail) := by
  obtain ⟨row, hn, hfollowed, -, -⟩ := exists_row_of_lineEnd? hend
  obtain ⟨v, written, hwritten, hnwritten, -⟩ := hvalue
  have hblanks : Blanks (text.takeWhile Toml.isBlank) := fun c hc => List.mem_takeWhile_imp hc
  have htext : text.takeWhile Toml.isBlank ++ (written ++ after) = text := by
    rw [← hwritten]
    exact List.takeWhile_append_dropWhile
  have hnkey : '\n' ∉ key.toList := hkey.not_mem (by decide)
  have happend := hfollowed.append
    (margin ++ (key.toList ++ (gap ++ '=' :: (text.takeWhile Toml.isBlank ++ written))))
  simp only [List.append_assoc, List.cons_append, htext] at happend
  obtain ⟨line, hline, hlines⟩ := exists_lines_cons
    (by simp [hmargin.not_mem, hgap.not_mem, hblanks.not_mem, hnkey, hnwritten, hn]) happend
    (by simp)
  refine ⟨line, trimEnd (text.takeWhile Toml.isBlank ++ (written ++ row)), hlines, ?_⟩
  obtain ⟨c, letters, hcons, hc⟩ := hkey.exists_cons
  rw [hline, hcons, List.cons_append,
    trim_append_cons _ hmargin.allBlank (not_isBlank_of_isBare hc), ← List.append_assoc,
    trimEnd_append_cons _ _ (by decide), List.append_assoc, List.cons_append]

end SectionCompiler.Settings
