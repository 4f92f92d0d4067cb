import Mathlib.Data.List.Nodup
import SectionCompiler.Proofs.Layout

/-! Reading settings laid out in rows. What has been read is at any time a draft: values before any
header, and the registry tables below them, the last one still open. A row adds a key to the open
part of the draft, or opens a table. -/

namespace SectionCompiler.Settings

open Text Toml

variable {cs rest margin gap gap' after : List Char} {key : String}

theorem skipBlanks_append (hgap : Blanks gap) {c : Char} (hc : Toml.isBlank c = false)
    (more : List Char) : skipBlanks (gap ++ c :: more) = c :: more := by
  rw [skipBlanks, List.dropWhile_append_of_pos hgap, List.dropWhile_cons_of_neg (by simp [hc])]

theorem isBlank_of_isBare {c : Char} (h : isBare c = true) : Toml.isBlank c = false := by
  have hspace : c ≠ ' ' := ne_of_isBare h (by decide)
  have htab : c ≠ '\t' := ne_of_isBare h (by decide)
  simp [Toml.isBlank, hspace, htab]

theorem simpleKey?_append {more : List Char} (hkey : BareKey key)
    (hmore : ∀ c ∈ more.head?, isBare c = false) :
    simpleKey? (key.toList ++ more) = some (key, more) := by
  obtain ⟨c, letters, hcons, hc⟩ := hkey.exists_cons
  have hquote : c ≠ '"' := ne_of_isBare hc (by decide)
  have hquote' : c ≠ '\'' := ne_of_isBare hc (by decide)
  have htake := hkey.takeWhile_append hmore
  have hsplit := List.takeWhile_append_dropWhile (p := isBare) (l := key.toList ++ more)
  rw [htake] at hsplit
  have hdrop := List.append_cancel_left hsplit
  unfold simpleKey?
  split
  · next heq => simp [hcons, hquote] at heq
  · next heq => simp [hcons, hquote'] at heq
  · simp [htake, hdrop, hkey.ne]

/-- A key is read up to the blanks behind it and the mark behind them. -/
theorem key?_append {c : Char} (hkey : BareKey key) (hgap : Blanks gap) (hgap' : Blanks gap')
    (hbare : isBare c = false) (hblank : Toml.isBlank c = false) (hdot : c ≠ '.')
    (more : List Char) :
    key? (gap ++ (key.toList ++ (gap' ++ c :: more))) = some ([key], c :: more) := by
  have hstart : skipBlanks (gap ++ (key.toList ++ (gap' ++ c :: more))) =
      key.toList ++ (gap' ++ c :: more) := by
    obtain ⟨d, letters, hcons, hd⟩ := hkey.exists_cons
    rw [hcons]
    exact skipBlanks_append hgap (isBlank_of_isBare hd) _
  have hparts : ∀ fuel, keyParts? (fuel + 1) (gap ++ (key.toList ++ (gap' ++ c :: more))) =
      some ([key], c :: more) := by
    intro fuel
    rw [keyParts?, hstart, simpleKey?_append hkey (not_isBare_head? hgap'.allBlank hbare more)]
    simp only [Option.bind_eq_bind, Option.bind_some, skipBlanks_append hgap' hblank]
    split
    · next heq => exact absurd (List.cons.inj heq).1 hdot
    · rfl
  simp [key?, hparts, depthLimit]

abbrev Pairs := List (String × Toml.Value)

def items (es : Pairs) : Entries := es.map fun e => (e.1, .value e.2)

def names (es : Pairs) : List String := es.map Prod.fst

/-- What has been read: the keys before any header, and the registry tables, the last one first. -/
def draft (top : Pairs) : List Pairs → Reading
  | [] => ⟨items top, []⟩
  | last :: others =>
    ⟨items top ++ [("registry", .tables (items last :: others.map items))], ["registry"]⟩

variable {top es last : Pairs} {others : List Pairs}
  {v : Toml.Value} {entries : Entries}

theorem lookup_items (es : Pairs) (key : String) :
    (items es).lookup key = (es.lookup key).map .value := by
  induction es with
  | nil => rfl
  | cons e es ih =>
    rw [items, List.map_cons, List.lookup_cons, List.lookup_cons]
    split
    · rfl
    · exact ih

theorem lookup_eq_none_iff : es.lookup key = none ↔ key ∉ names es := by
  simp only [List.lookup_eq_none_iff, bne_iff_ne, names, List.mem_map, not_exists, not_and]
  exact forall_congr' fun e => imp_congr_right fun _ => ne_comm

theorem add?_items (h : (items es).add? key v = some entries) :
    key ∉ names es ∧ entries = items (es ++ [(key, v)]) := by
  unfold Entries.add? at h
  rw [lookup_items, Option.isSome_map] at h
  split at h
  · cases h
  · next hnone =>
    refine ⟨lookup_eq_none_iff.1 (Option.not_isSome_iff_eq_none.1 hnone), ?_⟩
    rw [← Option.some.inj h, items, items, List.map_append]
    rfl

theorem lookup_registry (h : "registry" ∉ names top) (item : Item) :
    (items top ++ [("registry", item)]).lookup "registry" = some item := by
  rw [List.lookup_append, lookup_items, lookup_eq_none_iff.2 h]
  simp

theorem place_registry (h : "registry" ∉ names top) (item item' : Item) :
    Entries.place "registry" item' (items top ++ [("registry", item)]) =
      items top ++ [("registry", item')] := by
  induction top with
  | nil => simp [items, Entries.place]
  | cons e top ih =>
    obtain ⟨hne, hrest⟩ := List.ne_and_not_mem_of_not_mem_cons h
    have hplace := ih hrest
    rw [items] at hplace ⊢
    rw [List.map_cons, List.cons_append, Entries.place, if_neg hne.symm, hplace, List.cons_append]

/-- What holds of a draft: each of its parts has distinct keys, and the tables have their own. -/
structure Sound (top : Pairs) (els : List Pairs) : Prop where
  nodup : (names top).Nodup
  registry : els ≠ [] → "registry" ∉ names top
  tables : ∀ es ∈ els, (names es).Nodup

theorem nodup_names_append (h : (names es).Nodup) (hkey : key ∉ names es) :
    (names (es ++ [(key, v)])).Nodup := by
  rw [names, List.map_append]
  refine List.nodup_append.2 ⟨h, List.nodup_singleton _, fun k hk k' hk' => ?_⟩
  rw [List.mem_singleton.1 hk']
  rintro rfl
  exact hkey hk

theorem addKey?_top (h : Sound top [])
    (hadd : (draft top []).entries.atHeader (fun es => es.addKey? [key] v) (draft top []).header =
      some entries) :
    entries = (draft (top ++ [(key, v)]) []).entries ∧ Sound (top ++ [(key, v)]) [] := by
  obtain ⟨hkey, rfl⟩ := add?_items hadd
  exact ⟨rfl, nodup_names_append h.nodup hkey, nofun, nofun⟩

theorem addKey?_table (h : Sound top (last :: others))
    (hadd : (draft top (last :: others)).entries.atHeader (fun es => es.addKey? [key] v)
      (draft top (last :: others)).header = some entries) :
    entries = (draft top ((last ++ [(key, v)]) :: others)).entries ∧
      Sound top ((last ++ [(key, v)]) :: others) := by
  have htop := h.registry (List.cons_ne_nil _ _)
  rw [draft, Entries.atHeader, lookup_registry htop] at hadd
  dsimp only at hadd
  obtain ⟨es, hes, rfl⟩ := Option.map_eq_some_iff.1 hadd
  obtain ⟨hkey, rfl⟩ := add?_items hes
  refine ⟨place_registry htop _ _, h.nodup, fun _ => htop, ?_⟩
  obtain ⟨hlast, hothers⟩ := List.forall_mem_cons.1 h.tables
  exact List.forall_mem_cons.2 ⟨nodup_names_append hlast hkey, hothers⟩

theorem openElement?_draft {els : List Pairs} (h : Sound top els)
    (hopen : (draft top els).entries.openElement? "registry" = some entries) :
    entries = (draft top ([] :: els)).entries ∧ Sound top ([] :: els) := by
  have htables : ∀ es ∈ [] :: els, (names es).Nodup :=
    List.forall_mem_cons.2 ⟨List.nodup_nil, h.tables⟩
  unfold Entries.openElement? at hopen
  cases els with
  | nil =>
    rw [draft, lookup_items] at hopen
    cases hlookup : top.lookup "registry" with
    | none =>
      rw [hlookup] at hopen
      exact ⟨(Option.some.inj hopen).symm, h.nodup, fun _ => lookup_eq_none_iff.1 hlookup, htables⟩
    | some v =>
      rw [hlookup] at hopen
      cases hopen
  | cons last others =>
    have htop := h.registry (List.cons_ne_nil _ _)
    rw [draft, lookup_registry htop] at hopen
    refine ⟨?_, h.nodup, fun _ => htop, htables⟩
    rw [← Option.some.inj hopen]
    exact place_registry htop _ _

theorem skipBlanks_skipBlanks (cs : List Char) : skipBlanks (skipBlanks cs) = skipBlanks cs := by
  have hhead := List.head?_dropWhile_not Toml.isBlank cs
  unfold skipBlanks
  cases h : cs.dropWhile Toml.isBlank with
  | nil => rfl
  | cons c more =>
    rw [h] at hhead
    exact List.dropWhile_cons_of_neg (by simpa using hhead)

theorem lineEnd?_skipBlanks (cs : List Char) : lineEnd? (skipBlanks cs) = lineEnd? cs := by
  rw [lineEnd?, skipBlanks_skipBlanks, ← lineEnd?]

theorem lines?_filler {fuel : Nat} {r : Reading} (hend : lineEnd? cs = some rest)
    (h : lines? fuel r cs = some entries) : ∃ fuel, lines? fuel r rest = some entries := by
  cases fuel with
  | zero => cases h
  | succ fuel =>
    rw [← lineEnd?_skipBlanks] at hend
    unfold lines? at h
    split at h
    · next hnil =>
      rw [hnil] at hend
      obtain rfl := Option.some.inj hend
      exact ⟨1, h⟩
    · next c more hcons =>
      rw [hcons] at hend
      rw [hend] at h
      split at h
      · exact ⟨fuel, h⟩
      · next hmark =>
        have hskip : skipBlanks (c :: more) = c :: more := by rw [← hcons, skipBlanks_skipBlanks]
        unfold lineEnd? at hend
        rw [hskip, skipComment_of_head? (by simpa using fun hc => hmark (.inl hc))] at hend
        unfold newline? at hend
        split at hend
        · cases ‹_ = []›
        · split at hend
          · exact absurd (.inr (.inl (List.cons.inj ‹_›).1)) hmark
          · exact absurd (.inr (.inr (List.cons.inj ‹_›).1)) hmark
          · cases hend

theorem pair?_entry {r : Reading} {text : List Char} (hkey : BareKey key) (hgap : Blanks gap)
    (hvalue : HasValue (skipBlanks text) after) (hend : lineEnd? after = some rest) :
    ∃ v, pair? r (key.toList ++ (gap ++ '=' :: text)) =
      (r.entries.atHeader (fun es => es.addKey? [key] v) r.header).map fun es =>
        (⟨es, r.header⟩, rest) := by
  obtain ⟨v, written, -, -, hread⟩ := hvalue
  have hword : key? (key.toList ++ (gap ++ '=' :: text)) = some ([key], '=' :: text) :=
    key?_append hkey (nofun : Blanks []) hgap (by decide) (by decide) (by decide) text
  refine ⟨v, ?_⟩
  simp only [pair?, keyAndSign?, hword, hread, hend, Option.bind_eq_bind, Option.bind_some]
  exact Option.map_eq_bind.symm

theorem header?_registry {r : Reading} (hgap : Blanks gap) (hgap' : Blanks gap')
    (hend : lineEnd? after = some rest) :
    header? r ('[' :: (gap ++ ("registry".toList ++ (gap' ++ ']' :: ']' :: after)))) =
      (r.entries.openElement? "registry").map fun es => (⟨es, ["registry"]⟩, rest) := by
  have hword : key? (gap ++ ("registry".toList ++ (gap' ++ ']' :: ']' :: after))) =
      some (["registry"], ']' :: ']' :: after) :=
    key?_append (bareKey_of_all (by decide) rfl) hgap hgap' (by decide) (by decide) (by decide)
      (']' :: after)
  simp only [header?, hword, hend, Option.bind_eq_bind, Option.bind_some]
  exact Option.map_eq_bind.symm

/-- The reading of a row with a key goes on below it. -/
theorem lines?_entry {fuel : Nat} {r : Reading} {text : List Char} (hmargin : Blanks margin)
    (hkey : BareKey key) (hgap : Blanks gap) (hvalue : HasValue (skipBlanks text) after)
    (hend : lineEnd? after = some rest)
    (h : lines? fuel r (margin ++ (key.toList ++ (gap ++ '=' :: text))) = some entries) :
    ∃ v es, r.entries.atHeader (fun es => es.addKey? [key] v) r.header = some es ∧
      ∃ fuel, lines? fuel ⟨es, r.header⟩ rest = some entries := by
  obtain ⟨v, hpair⟩ := pair?_entry (r := r) hkey hgap hvalue hend
  obtain ⟨c, letters, hcons, hc⟩ := hkey.exists_cons
  cases fuel with
  | zero => cases h
  | succ fuel =>
    have hmark : ¬(c = '#' ∨ c = '\n' ∨ c = '\r') := by
      rintro (rfl | rfl | rfl) <;> cases hc
    have hopen : c ≠ '[' := ne_of_isBare hc (by decide)
    rw [hcons, List.cons_append] at hpair h
    rw [lines?, skipBlanks_append hmargin (isBlank_of_isBare hc)] at h
    dsimp only at h
    rw [if_neg hmark, if_neg hopen, hpair] at h
    obtain ⟨p, hp, h⟩ := Option.bind_eq_some_iff.1 h
    obtain ⟨es, hes, rfl⟩ := Option.map_eq_some_iff.1 hp
    exact ⟨v, es, hes, fuel, h⟩

theorem lines?_header {fuel : Nat} {r : Reading} (hmargin : Blanks margin) (hgap : Blanks gap)
    (hgap' : Blanks gap') (hend : lineEnd? after = some rest)
    (h : lines? fuel r (margin ++ '[' :: '[' :: (gap ++ ("registry".toList ++
      (gap' ++ ']' :: ']' :: after)))) = some entries) :
    ∃ es, r.entries.openElement? "registry" = some es ∧
      ∃ fuel, lines? fuel ⟨es, ["registry"]⟩ rest = some entries := by
  cases fuel with
  | zero => cases h
  | succ fuel =>
    rw [lines?, skipBlanks_append hmargin (by decide)] at h
    dsimp only at h
    rw [if_neg (by decide), if_pos rfl, header?_registry hgap hgap' hend] at h
    obtain ⟨p, hp, h⟩ := Option.bind_eq_some_iff.1 h
    obtain ⟨es, hes, rfl⟩ := Option.map_eq_some_iff.1 hp
    exact ⟨es, hes, fuel, h⟩

def TableRows.names (t : TableRows) : List String := t.keys.map Prod.snd

theorem lines?_nil {fuel : Nat} {r : Reading} (h : lines? fuel r [] = some entries) :
    entries = r.entries := by
  cases fuel with
  | zero => cases h
  | succ fuel => exact (Option.some.inj h).symm

/-- Below a header, a run fills the open table up to the next header and adds the tables that
follow. -/
theorem exists_draft_of_table {rows : List Row} (h : Laid cs rows) {fuel : Nat} (n : Nat)
    (hsound : Sound top (last :: others))
    (hread : lines? fuel (draft top (last :: others)) cs = some entries) :
    ∃ last' more, entries = (draft top (more ++ last' :: others)).entries ∧
      Sound top (more ++ last' :: others) ∧
      names last' = names last ++ (Row.block n rows).map Prod.snd ∧
      more.reverse.map names = (Row.tables n rows).map TableRows.names := by
  induction h generalizing fuel n last others with
  | nil => exact ⟨last, [], lines?_nil hread, hsound, (List.append_nil _).symm, rfl⟩
  | filler hne hend _ ih =>
    obtain ⟨fuel, hread⟩ := lines?_filler hend hread
    exact ih (n + 1) hsound hread
  | header hmargin hgap hgap' hend _ ih =>
    obtain ⟨es, hopen, fuel, hread⟩ := lines?_header hmargin hgap hgap' hend hread
    obtain ⟨rfl, hsound⟩ := openElement?_draft hsound hopen
    obtain ⟨last', more, rfl, hsound, hlast, hmore⟩ := ih (n + 1) hsound hread
    refine ⟨last, more ++ [last'], by simp, by simpa using hsound, (List.append_nil _).symm, ?_⟩
    rw [List.reverse_append, List.map_append, hmore, Row.tables, List.map_cons]
    exact congrArg (· :: _) hlast
  | entry hmargin hkey hgap hvalue hend _ ih =>
    obtain ⟨v, es, hadd, fuel, hread⟩ := lines?_entry hmargin hkey hgap hvalue hend hread
    obtain ⟨rfl, hsound⟩ := addKey?_table hsound hadd
    obtain ⟨last', more, rfl, hsound, hlast, hmore⟩ := ih (n + 1) hsound hread
    refine ⟨last', more, rfl, hsound, ?_, hmore⟩
    rw [hlast, names, List.map_append, List.append_assoc]
    rfl

/-- A run over a text gives the keys before the first header, and then its tables. -/
theorem exists_draft {rows : List Row} (h : Laid cs rows) {fuel : Nat} (n : Nat)
    (hsound : Sound top []) (hread : lines? fuel (draft top []) cs = some entries) :
    ∃ top' els, entries = (draft top' els).entries ∧ Sound top' els ∧
      names top' = names top ++ (Row.block n rows).map Prod.snd ∧
      els.reverse.map names = (Row.tables n rows).map TableRows.names := by
  induction h generalizing fuel n top with
  | nil => exact ⟨top, [], lines?_nil hread, hsound, (List.append_nil _).symm, rfl⟩
  | filler hne hend _ ih =>
    obtain ⟨fuel, hread⟩ := lines?_filler hend hread
    exact ih (n + 1) hsound hread
  | header hmargin hgap hgap' hend hrest _ =>
    obtain ⟨es, hopen, fuel, hread⟩ := lines?_header hmargin hgap hgap' hend hread
    obtain ⟨rfl, hsound⟩ := openElement?_draft hsound hopen
    obtain ⟨last, more, rfl, hsound, hlast, hmore⟩ :=
      exists_draft_of_table hrest (n + 1) hsound hread
    refine ⟨top, more ++ [last], rfl, hsound, (List.append_nil _).symm, ?_⟩
    rw [List.reverse_append, List.map_append, hmore, Row.tables, List.map_cons]
    exact congrArg (· :: _) hlast
  | entry hmargin hkey hgap hvalue hend _ ih =>
    obtain ⟨v, es, hadd, fuel, hread⟩ := lines?_entry hmargin hkey hgap hvalue hend hread
    obtain ⟨rfl, hsound⟩ := addKey?_top hsound hadd
    obtain ⟨top', els, rfl, hsound, htop, hels⟩ := ih (n + 1) hsound hread
    refine ⟨top', els, rfl, hsound, ?_, hels⟩
    rw [htop, names, List.map_append, List.append_assoc]
    rfl

theorem valuesOf_append (es es' : Entries) :
    valuesOf (es ++ es') = valuesOf es ++ valuesOf es' := by
  induction es with
  | nil => rfl
  | cons e es ih => rw [List.cons_append, valuesOf, ih, valuesOf, List.cons_append]

theorem valuesOf_items (es : Pairs) : valuesOf (items es) = es := by
  induction es with
  | nil => rfl
  | cons e es ih =>
    rw [items] at ih ⊢
    rw [List.map_cons, valuesOf, ih]
    rfl

theorem tablesOf_items (els : List Pairs) :
    tablesOf (els.map items) = els.map .table := by
  induction els with
  | nil => rfl
  | cons es els ih => rw [List.map_cons, tablesOf, valuesOf_items, ih, List.map_cons]

def registryOf (els : List Pairs) : Pairs :=
  if els = [] then [] else [("registry", .array (els.reverse.map .table))]

theorem valuesOf_draft (top : Pairs) (els : List Pairs) :
    valuesOf (draft top els).entries = top ++ registryOf els := by
  cases els with
  | nil => exact (valuesOf_items top).trans (List.append_nil _).symm
  | cons last others =>
    rw [draft, valuesOf_append, valuesOf_items, registryOf, if_neg (List.cons_ne_nil _ _),
      valuesOf, Item.toValue, ← List.map_cons, tablesOf_items, ← List.map_reverse]
    rfl

theorem head?_append_ne {c mark : Char} (hmargin : Blanks margin)
    (hmark : Toml.isBlank mark = false) (hc : c ≠ mark) (more : List Char) :
    (margin ++ c :: more).head? ≠ some mark := by
  intro h
  cases margin with
  | nil => exact hc (Option.some.inj h)
  | cons b margin =>
    obtain rfl := Option.some.inj h
    exact hmargin.not_mem_of hmark List.mem_cons_self

theorem Laid.head?_ne {rows : List Row} (h : Laid cs rows) : cs.head? ≠ some '\ufeff' := by
  cases h with
  | nil => nofun
  | filler hne hend =>
    intro hmark
    obtain ⟨more, rfl⟩ := List.head?_eq_some_iff.1 hmark
    cases hend
  | header hmargin => exact head?_append_ne hmargin (by decide) (by decide) _
  | entry hmargin hkey =>
    obtain ⟨c, letters, hcons, hc⟩ := hkey.exists_cons
    rw [hcons]
    exact head?_append_ne hmargin (by decide) (ne_of_isBare hc (by decide)) _

/-- What a text laid out in rows says: its keys before any header, and its tables in order. -/
theorem parse?_laid {content : String} {rows : List Row} (h : Laid content.toList rows)
    {es : Pairs} (hparse : parse? content = some es) (n : Nat) :
    ∃ top els, es = top ++ registryOf els ∧ Sound top els ∧
      names top = (Row.block n rows).map Prod.snd ∧
      els.reverse.map names = (Row.tables n rows).map TableRows.names := by
  have hmark := h.head?_ne
  unfold parse? at hparse
  obtain ⟨entries, hread, rfl⟩ := Option.map_eq_some_iff.1 hparse
  split at hread
  · next heq => exact absurd (by rw [heq]; rfl) hmark
  · have hsound : Sound [] [] := ⟨List.nodup_nil, nofun, nofun⟩
    obtain ⟨top, els, rfl, hsound, htop, hels⟩ := exists_draft h n hsound hread
    exact ⟨top, els, valuesOf_draft top els, hsound, htop, hels⟩

end SectionCompiler.Settings
