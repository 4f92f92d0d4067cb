import SectionCompiler.Proofs.Coverage
import SectionCompiler.Proofs.Folding
import SectionCompiler.Proofs.Reference

/-! Marks in the place of arguments. A mark is one character that stands neither in a template nor
in its arguments. Where no text that a range puts in touches a live placeholder, a template gives
for its arguments what it gives for marks with the arguments put in for them afterwards: the text
of an argument is not read as text of the template. -/

namespace SectionCompiler.Template

open Placeholder

/-- The places where arguments stand after a range of a text has been spread. -/
def insertionsAt (range : Range) (slice : List String) (text : List Char) : List Insertion :=
  match Text.cutAround range.text text with
  | some (before, after) => slice.map fun arg => ⟨before, arg.toList, after⟩
  | none => []

def keyInsertions (args : List String) (key : String) : List Insertion :=
  match spread? key args with
  | some (range, slice) => insertionsAt range slice key.toList
  | none => []

def valueInsertions (args : List String) (value : String) : List Insertion :=
  match spread? value args with
  | some (range, slice) =>
    (commaParts value).flatMap fun part => insertionsAt range slice part.toList
  | none => []

/-- The places where the ranges of a template put arguments. -/
def insertions (t : Template) (args : List String) : List Insertion :=
  t.body.entries.flatMap fun e =>
    keyInsertions args e.1 ++ e.2.strings.flatMap (valueInsertions args)

/-- No argument that a range puts in touches a live placeholder. -/
def Inert (t : Template) (args : List String) : Prop :=
  ∀ i ∈ t.insertions args, i.Untouched (t.arity.effective args.length) args

/-- Marks for the arguments of a template: as many characters, no two alike, that stand neither in
the template nor in the arguments and mean nothing in a text. -/
structure Marking (t : Template) (args : List String) where
  marks : List Char
  length_eq : marks.length = args.length
  nodup : marks.Nodup
  not_mem_body : ∀ text ∈ Arity.texts t.body, ∀ c ∈ marks, c ∉ text.toList
  not_mem_args : ∀ arg ∈ args, ∀ c ∈ marks, c ∉ arg.toList
  plain : ∀ c ∈ marks, ¬ IsSyntax c ∧ c ∉ ['.', ',']

namespace Marking

variable {t : Template} {args : List String} (m : Marking t args)

def texts : List String := m.marks.map String.singleton

def unmarkChar (c : Char) : List Char :=
  match args[m.marks.idxOf c]? with
  | some arg => arg.toList
  | none => [c]

/-- Puts the arguments in for their marks. -/
def unmark (text : String) : String := String.ofList (text.toList.flatMap m.unmarkChar)

def unmarkEntry (e : Entry) : Entry := (m.unmark e.1, e.2.map m.unmark)

def pairs : List (Char × String) := m.marks.zip args

theorem map_fst_pairs : (m.pairs.map fun p => String.singleton p.1) = m.texts := by
  have h := List.map_fst_zip (Nat.le_of_eq m.length_eq)
  rw [texts, ← h, List.map_map]
  rfl

theorem map_snd_pairs : m.pairs.map Prod.snd = args :=
  List.map_snd_zip (Nat.le_of_eq m.length_eq.symm)

theorem length_texts : m.texts.length = args.length := by
  rw [texts, List.length_map, m.length_eq]

theorem unmarkChar_of_not_mem {c : Char} (h : c ∉ m.marks) : m.unmarkChar c = [c] := by
  rw [unmarkChar, List.idxOf_eq_length h, m.length_eq, List.getElem?_eq_none (Nat.le_refl _)]

theorem unmarkChar_of_getElem? {i : Nat} {c : Char} {arg : String} (hc : m.marks[i]? = some c)
    (harg : args[i]? = some arg) : m.unmarkChar c = arg.toList := by
  obtain ⟨hi, rfl⟩ := List.getElem?_eq_some_iff.1 hc
  rw [unmarkChar, m.nodup.idxOf_getElem, harg]

theorem unmarkChar_of_mem_pairs {c : Char} {arg : String} (h : (c, arg) ∈ m.pairs) :
    m.unmarkChar c = arg.toList := by
  obtain ⟨i, hi⟩ := List.mem_iff_getElem?.1 h
  obtain ⟨hc, harg⟩ := List.getElem?_zip_eq_some.1 hi
  exact m.unmarkChar_of_getElem? hc harg

/-- Text of the template has no marks in it. -/
def Free (cs : List Char) : Prop := ∀ c ∈ cs, c ∉ m.marks

variable {m}

theorem Free.unmark {cs : List Char} (h : m.Free cs) : cs.flatMap m.unmarkChar = cs := by
  induction cs with
  | nil => rfl
  | cons c rest ih =>
    obtain ⟨hc, hrest⟩ := List.forall_mem_cons.1 h
    rw [List.flatMap_cons, m.unmarkChar_of_not_mem hc, ih hrest, List.singleton_append]

theorem Free.of_subset {cs ds : List Char} (h : m.Free cs) (hs : ds ⊆ cs) : m.Free ds :=
  fun c hc => h c (hs hc)

/-- Filling a piece with marks and then with the arguments is filling it with the arguments. -/
theorem unmark_fill_piece (limit : Nat) {p : Piece} (h : m.Free p.source) :
    (p.fill limit m.texts).flatMap m.unmarkChar = p.fill limit args := by
  unfold Piece.fill
  cases p.index? with
  | none => exact h.unmark
  | some i =>
    dsimp only
    split
    · cases harg : args[i]? with
      | none =>
        have hmark : m.texts[i]? = none := by
          rw [List.getElem?_eq_none_iff, m.length_texts, ← List.getElem?_eq_none_iff, harg]
        rw [hmark]
        exact h.unmark
      | some arg =>
        have hi : i < m.marks.length := by
          rw [m.length_eq]
          exact (List.getElem?_eq_some_iff.1 harg).1
        have hmark := List.getElem?_eq_getElem hi
        rw [texts, List.getElem?_map, hmark, Option.map_some]
        dsimp only
        rw [String.toList_singleton, List.flatMap_singleton, m.unmarkChar_of_getElem? hmark harg]
    · exact h.unmark

/-- Filled with marks the text `x` comes to what `y` comes to, when the arguments are put in for
the marks afterwards. -/
def Agrees (m : Marking t args) (limit : Nat) (x y : List Char) : Prop :=
  (fillChars limit m.texts x).flatMap m.unmarkChar = fillChars limit args y

variable {limit : Nat}

theorem Agrees.fill {x y : String} (h : m.Agrees limit x.toList y.toList) :
    m.unmark (fill limit m.texts x) = fill limit args y := by
  rw [Marking.unmark, toList_fill, h]
  rfl

theorem Free.agrees {cs : List Char} (h : m.Free cs) : m.Agrees limit cs cs := by
  rw [Agrees, fillChars, List.flatMap_assoc, fillChars]
  refine List.flatMap_congr fun p hp => unmark_fill_piece limit (h.of_subset fun c hc => ?_)
  exact mem_of_mem_source hp hc

/-- A mark agrees with its argument between texts of the template, when the argument touches no
live placeholder there. -/
theorem agrees_insertion {before after : List Char} {c : Char} {arg : String}
    (hbefore : m.Free before) (hafter : m.Free after) (hpair : (c, arg) ∈ m.pairs)
    (h : Insertion.Untouched limit args ⟨before, arg.toList, after⟩) :
    m.Agrees limit (before ++ [c] ++ after) (before ++ arg.toList ++ after) := by
  have hc : c ∈ m.marks := (List.of_mem_zip hpair).1
  have hmark : Insertion.Untouched limit m.texts ⟨before, [c], after⟩ :=
    Insertion.untouched_of_not_isSyntax (List.cons_ne_nil _ _) fun d hd =>
      List.mem_singleton.1 hd ▸ (m.plain c hc).1
  have hleft := hmark.fillChars_text
  have hright := h.fillChars_text
  simp only [Insertion.text] at hleft hright
  have hbefore' : m.Agrees limit before before := hbefore.agrees
  have hafter' : m.Agrees limit after after := hafter.agrees
  rw [Agrees, hleft, hright, List.flatMap_append, List.flatMap_append, hbefore', hafter',
    List.flatMap_singleton, m.unmarkChar_of_mem_pairs hpair]

theorem fillChars_comma (args : List String) (xs ys : List Char) :
    fillChars limit args (xs ++ ',' :: ys) =
      fillChars limit args xs ++ ',' :: fillChars limit args ys := by
  have hcomma : Insertion.Untouched limit args ⟨xs, [','], ys⟩ :=
    Insertion.untouched_of_not_isSyntax (List.cons_ne_nil _ _) fun c hc =>
      List.mem_singleton.1 hc ▸ by decide
  have h := hcomma.fillChars_text
  simp only [Insertion.text, List.append_assoc, List.singleton_append] at h
  exact h

theorem unmarkChar_comma : m.unmarkChar ',' = [','] :=
  m.unmarkChar_of_not_mem fun h => (m.plain _ h).2 (by decide)

theorem agrees_intercalate {xs ys : List (List Char)} (h : List.Forall₂ (m.Agrees limit) xs ys) :
    m.Agrees limit ([','].intercalate xs) ([','].intercalate ys) := by
  induction h with
  | nil => exact Free.agrees fun c hc => absurd hc (by simp)
  | cons hxy hrest ih =>
    cases hrest with
    | nil => simpa using hxy
    | cons _ _ =>
      rw [List.intercalate_cons_cons, List.intercalate_cons_cons, Agrees, List.append_assoc,
        List.append_assoc, List.singleton_append, List.singleton_append, fillChars_comma,
        fillChars_comma, List.flatMap_append, List.flatMap_cons, hxy, unmarkChar_comma, ih]
      rfl

theorem agrees_splice {text : String} {range : Range} {c : Char} {arg : String}
    (htext : m.Free text.toList) (hpair : (c, arg) ∈ m.pairs)
    (h : ∀ i ∈ insertionsAt range [arg] text.toList, i.Untouched limit args) :
    m.Agrees limit (splice text range (String.singleton c)).toList
      (splice text range arg).toList := by
  unfold splice Text.replaceFirst
  unfold insertionsAt at h
  cases hcut : Text.cutAround range.text text.toList with
  | none =>
    simp only [String.toList_ofList]
    exact htext.agrees
  | some parts =>
    obtain ⟨before, after⟩ := parts
    have htext' := Text.eq_of_cutAround hcut
    simp only [hcut, List.map_cons, List.map_nil, List.forall_mem_singleton] at h
    simp only [String.toList_ofList, String.toList_singleton]
    refine agrees_insertion (htext.of_subset fun d hd => ?_) (htext.of_subset fun d hd => ?_) hpair h
    · simp [htext', hd]
    · simp [htext', hd]

/-- A range spreads over the marks as it spreads over the arguments. -/
theorem spread?_cases (m : Marking t args) (text : String) :
    (spread? text m.texts = none ∧ spread? text args = none) ∨
      ∃ range ps, ps ⊆ m.pairs ∧
        spread? text m.texts = some (range, ps.map fun p => String.singleton p.1) ∧
        spread? text args = some (range, ps.map Prod.snd) := by
  unfold spread?
  cases firstRange? text with
  | none => exact Or.inl ⟨rfl, rfl⟩
  | some range =>
    simp only [Range.slice?, m.length_texts, Option.bind_eq_bind, Option.bind_some]
    cases range.bounded? args.length with
    | none => exact Or.inl ⟨rfl, rfl⟩
    | some bounds =>
      refine Or.inr ⟨range, (m.pairs.drop bounds.1).take (bounds.2 + 1 - bounds.1), ?_, ?_, ?_⟩
      · exact List.Subset.trans (List.take_subset _ _) (List.drop_subset _ _)
      · rw [List.map_take, List.map_drop, m.map_fst_pairs]
        rfl
      · rw [List.map_take, List.map_drop, m.map_snd_pairs]
        rfl

theorem insertionsAt_subset {range : Range} {slice slice' : List String} (h : slice ⊆ slice')
    (text : List Char) : insertionsAt range slice text ⊆ insertionsAt range slice' text := by
  unfold insertionsAt
  split
  · exact List.map_subset _ h
  · exact List.Subset.refl _

theorem agrees_spread {text : String} {range : Range} {ps : List (Char × String)}
    (htext : m.Free text.toList) (hps : ps ⊆ m.pairs)
    (h : ∀ i ∈ insertionsAt range (ps.map Prod.snd) text.toList, i.Untouched limit args) :
    List.Forall₂ (fun x y => m.Agrees limit x.toList y.toList)
      ((ps.map fun p => String.singleton p.1).map (splice text range))
      ((ps.map Prod.snd).map (splice text range)) := by
  rw [List.map_map, List.map_map, List.forall₂_map_left_iff, List.forall₂_map_right_iff,
    List.forall₂_same]
  intro p hp
  refine agrees_splice htext (hps hp) fun i hi => h i (insertionsAt_subset ?_ _ hi)
  simpa using ⟨p.1, hp⟩

theorem agrees_spreadKey {key : String} (hkey : m.Free key.toList)
    (h : ∀ i ∈ keyInsertions args key, i.Untouched limit args) :
    List.Forall₂ (fun x y => m.Agrees limit x.toList y.toList) (spreadKey key m.texts)
      (spreadKey key args) := by
  unfold spreadKey
  unfold keyInsertions at h
  rcases spread?_cases m key with ⟨hmarks, hargs⟩ | ⟨range, ps, hps, hmarks, hargs⟩
  · rw [hmarks, hargs]
    exact .cons hkey.agrees .nil
  · rw [hargs] at h
    rw [hmarks, hargs]
    exact agrees_spread hkey hps h

theorem forall₂_flatMap {α β : Type} {R : β → β → Prop} {xs : List α} {f g : α → List β}
    (h : ∀ x ∈ xs, List.Forall₂ R (f x) (g x)) :
    List.Forall₂ R (xs.flatMap f) (xs.flatMap g) := by
  induction xs with
  | nil => exact .nil
  | cons x rest ih =>
    obtain ⟨hx, hrest⟩ := List.forall_mem_cons.1 h
    rw [List.flatMap_cons, List.flatMap_cons]
    exact List.rel_append hx (ih hrest)

theorem subset_of_mem_commaParts {text part : String} (h : part ∈ commaParts text) :
    part.toList ⊆ text.toList := by
  obtain ⟨cs, hcs, rfl⟩ := List.mem_map.1 h
  intro c hc
  rw [String.toList_ofList] at hc
  have hmem := Name.mem_intercalate_of_mem [','] hcs hc
  rwa [List.intercalate_splitOn] at hmem

theorem agrees_spreadValue {value : String} (hvalue : m.Free value.toList)
    (h : ∀ i ∈ valueInsertions args value, i.Untouched limit args) :
    m.Agrees limit (spreadValue value m.texts).toList (spreadValue value args).toList := by
  unfold spreadValue
  unfold valueInsertions at h
  rcases spread?_cases m value with ⟨hmarks, hargs⟩ | ⟨range, ps, hps, hmarks, hargs⟩
  · rw [hmarks, hargs]
    exact hvalue.agrees
  · rw [hargs] at h
    rw [hmarks, hargs]
    dsimp only
    rw [String.toList_intercalate, String.toList_intercalate]
    refine agrees_intercalate ?_
    rw [List.forall₂_map_left_iff, List.forall₂_map_right_iff]
    refine forall₂_flatMap fun part hpart => ?_
    have hfree := hvalue.of_subset (subset_of_mem_commaParts hpart)
    split
    · exact agrees_spread hfree hps fun i hi => h i (List.mem_flatMap.2 ⟨part, hpart, hi⟩)
    · exact .cons hfree.agrees .nil

/-- The entries that an entry of a template gives for arguments are those that it gives for marks
with the arguments put in. -/
theorem expandEntry_eq {e : Entry} (hkey : m.Free e.1.toList)
    (hvalue : ∀ text ∈ e.2.strings, m.Free text.toList)
    (h : ∀ i ∈ keyInsertions args e.1 ++ e.2.strings.flatMap (valueInsertions args),
      i.Untouched limit args) :
    expandEntry limit args e = (expandEntry limit m.texts e).map m.unmarkEntry := by
  have hkeys := agrees_spreadKey hkey fun i hi => h i (List.mem_append_left _ hi)
  have hvalues : (e.2.map fun text => fill limit m.texts (spreadValue text m.texts)).map m.unmark =
      e.2.map fun text => fill limit args (spreadValue text args) := by
    rw [Value.map_map]
    refine Value.map_congr fun text htext => (agrees_spreadValue (hvalue text htext) fun i hi =>
      h i (List.mem_append_right _ (List.mem_flatMap.2 ⟨text, htext, hi⟩))).fill
  rw [expandEntry, expandEntry, List.map_map, eq_comm, ← List.forall₂_eq_eq_eq,
    List.forall₂_map_left_iff, List.forall₂_map_right_iff]
  exact hkeys.imp fun key key' hfill => Prod.ext hfill.fill hvalues

/-- Before they are folded, the entries for arguments are those for marks with the arguments put
in. -/
theorem entriesFor_eq (m : Marking t args) (h : t.Inert args) :
    t.entriesFor args = (t.entriesFor m.texts).map m.unmarkEntry := by
  rw [entriesFor, entriesFor, m.length_texts, List.map_flatMap]
  refine List.flatMap_congr fun e he => expandEntry_eq (fun c hc hmark => ?_)
    (fun text htext c hc hmark => ?_) fun i hi => h i (List.mem_flatMap.2 ⟨e, he, hi⟩)
  · exact m.not_mem_body e.1 (List.mem_flatMap.2 ⟨e, he, List.mem_cons_self⟩) c hmark hc
  · exact m.not_mem_body text (List.mem_flatMap.2 ⟨e, he, List.mem_cons_of_mem _ htext⟩) c hmark hc

end Marking

/-- The text of an argument is not read as text of the template. Where no argument that a range
puts in touches a live placeholder, a template gives for its arguments the entries that it gives for
marks, with each mark replaced by its argument, and these folded. When the replacement leaves the
keys apart, the entries for the marks may be folded before it as well. -/
theorem expand_eq_fold_unmarked (t : Template) (args : List String) (m : Marking t args)
    (h : t.Inert args) :
    t.expand args = Section.fold ⟨(t.entriesFor m.texts).map m.unmarkEntry⟩ ∧
      (((t.expand m.texts).keys.map m.unmark).Nodup →
        t.expand args = Section.fold ⟨(t.expand m.texts).entries.map m.unmarkEntry⟩) := by
  have hfirst : t.expand args = Section.fold ⟨(t.entriesFor m.texts).map m.unmarkEntry⟩ := by
    rw [expand, m.entriesFor_eq h]
  refine ⟨hfirst, fun hkeys => ?_⟩
  have hfold := Section.fold_map_fold (g := Value.map m.unmark) hkeys
  exact hfirst.trans hfold.symm

def battery : Template where
  name := "battery"
  body := ⟨[("Gun$\x7b1...\x7d", .scalar "loaded"), ("Ship", .scalar "HMS $\x7b0\x7d")]⟩
  arity := .unbounded

def batteryMarks : Marking battery ["$\x7b1\x7d", "bow", "stern"] where
  marks := ['#', '%', '&']
  length_eq := rfl
  nodup := by decide
  not_mem_body := by simp [Arity.texts, battery, Value.strings]
  not_mem_args := by simp
  plain := by simp [IsSyntax]

theorem expand_eq_fold_unmarked_battery :
    battery.Inert ["$\x7b1\x7d", "bow", "stern"] ∧
      battery.expand ["$\x7b1\x7d", "bow", "stern"] =
        Section.fold ⟨(battery.entriesFor batteryMarks.texts).map batteryMarks.unmarkEntry⟩ ∧
      ((battery.expand batteryMarks.texts).keys.map batteryMarks.unmark).Nodup ∧
      battery.expand ["$\x7b1\x7d", "bow", "stern"] =
        Section.fold ⟨(battery.expand batteryMarks.texts).entries.map batteryMarks.unmarkEntry⟩ := by
  have hinert : battery.Inert ["$\x7b1\x7d", "bow", "stern"] := by
    have hplaces : battery.insertions ["$\x7b1\x7d", "bow", "stern"] =
        [⟨"Gun".toList, "bow".toList, []⟩, ⟨"Gun".toList, "stern".toList, []⟩] := by
      decide +kernel
    have hplain : ∀ i ∈ battery.insertions ["$\x7b1\x7d", "bow", "stern"],
        i.inner ≠ [] ∧ ∀ c ∈ i.inner, ¬ IsSyntax c := by
      rw [hplaces]
      simp [IsSyntax]
    exact fun i hi => Insertion.untouched_of_not_isSyntax (hplain i hi).1 (hplain i hi).2
  have hkeys : ((battery.expand batteryMarks.texts).keys.map batteryMarks.unmark).Nodup := by
    decide +kernel
  obtain ⟨hfirst, hsecond⟩ := expand_eq_fold_unmarked battery _ batteryMarks hinert
  exact ⟨hinert, hfirst, hkeys, hsecond hkeys⟩

/-- Three entries, and the first and the last have the same key. -/
def votes : Template where
  name := "votes"
  body := ⟨[("$\x7b0\x7d", .scalar "1"), ("$\x7b1\x7d", .scalar "2"), ("$\x7b0\x7d", .scalar "3")]⟩
  arity := .finite 2

def roll : Template where
  name := "roll"
  body := ⟨[("Crew", .scalar "$\x7b0...\x7d")]⟩
  arity := .unbounded

/-- Folded entries for marks do not tell the entries for the arguments. When two arguments are
alike, the last entry of a key may be another one, and an argument that a range puts in is read as
a placeholder. -/
theorem expand_ne_fold_unmarked :
    (ofBody "votes" votes.body = .ok votes ∧ ∃ m : Marking votes ["k", "k"],
      votes.expand ["k", "k"] ≠
        Section.fold ⟨(votes.expand m.texts).entries.map m.unmarkEntry⟩) ∧
    (ofBody "roll" roll.body = .ok roll ∧ ∃ m : Marking roll ["$\x7b1\x7d", "x"],
      roll.expand ["$\x7b1\x7d", "x"] ≠
        Section.fold ⟨(roll.expand m.texts).entries.map m.unmarkEntry⟩) := by
  let first : Marking votes ["k", "k"] := {
    marks := ['p', 'q']
    length_eq := rfl
    nodup := by decide
    not_mem_body := by simp [Arity.texts, votes, Value.strings]
    not_mem_args := by simp
    plain := by simp [IsSyntax] }
  let second : Marking roll ["$\x7b1\x7d", "x"] := {
    marks := ['p', 'q']
    length_eq := rfl
    nodup := by decide
    not_mem_body := by simp [Arity.texts, roll, Value.strings]
    not_mem_args := by simp
    plain := by simp [IsSyntax] }
  refine ⟨⟨?_, first, ?_⟩, ⟨?_, second, ?_⟩⟩
  · rw [ofBody, Arity.ofBody_eq_search]
    decide +kernel
  · decide +kernel
  · rw [ofBody, Arity.ofBody_eq_search]
    decide +kernel
  · decide +kernel

end SectionCompiler.Template
