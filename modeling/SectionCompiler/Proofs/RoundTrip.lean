import Mathlib.Algebra.Order.BigOperators.Group.List
import Mathlib.Algebra.Order.Ring.Nat
import Mathlib.Data.List.Basic
import SectionCompiler.Proofs.Gathering
import SectionCompiler.Proofs.Rows

/-! Reading what was written. Documents come back exactly when all their entries are legible. An
entry that is not weighs more than its lines do, and a document that was read weighs no more than
its lines, so one illegible entry keeps the documents from coming back. -/

namespace SectionCompiler

/-- A scalar weighs more than an item, and an empty list as much as one. -/
def Value.weight : Value → Nat
  | scalar _ => 2
  | list items => max 1 items.length

def Section.weight (s : Section) : Nat := (s.entries.map fun e => e.2.weight).sum

def weigh (es : List (String × Section)) : Nat := (es.map fun e => e.2.weight).sum

theorem Section.weight_push (s : Section) (key : String) (value : Value) :
    (s.push key value).weight = s.weight + value.weight := by
  simp [weight]

theorem Section.weight_le_of_extendLast? {key item : String} {es es' : List Entry}
    (h : extendLast? key item es = some es') : weight ⟨es'⟩ ≤ weight ⟨es⟩ + 1 := by
  induction es generalizing es' with
  | nil => simp [extendLast?] at h
  | cons e rest ih =>
    obtain ⟨k, v⟩ := e
    rw [extendLast?.eq_def] at h
    dsimp only at h
    split at h
    · obtain ⟨rest', hrest, rfl⟩ := Option.map_eq_some_iff.1 h
      have hle := ih hrest
      simp only [weight, List.map_cons, List.sum_cons] at hle ⊢
      omega
    · split at h
      · cases v with
        | scalar text => simp at h
        | list items =>
          obtain rfl := Option.some.inj h
          simp only [weight, List.map_cons, List.sum_cons, Value.weight, List.length_append,
            List.length_singleton]
          omega
      · simp at h

theorem Section.weight_pushItem_le (s : Section) (key item : String) :
    (s.pushItem key item).weight ≤ s.weight + 1 := by
  unfold pushItem
  split
  · next es h => exact weight_le_of_extendLast? h
  · exact (s.weight_push key _).le

theorem weigh_place_add (key : String) (content : Section) (es : List (String × Section)) :
    weigh (Keyed.place key content es) + ((es.lookup key).getD ∅).weight =
      weigh es + content.weight := by
  induction es with
  | nil => simp [Keyed.place, weigh, Section.weight]
  | cons e rest ih =>
    obtain ⟨k, v⟩ := e
    rw [lookup_cons_if, Keyed.place]
    by_cases h : k = key
    · rw [if_pos h, if_pos h.symm]
      simp only [weigh, List.map_cons, List.sum_cons, Option.getD_some]
      omega
    · rw [if_neg h, if_neg (Ne.symm h)]
      simp only [weigh, List.map_cons, List.sum_cons] at ih ⊢
      omega

/-- A change that adds little to a section adds little to the document. -/
theorem weigh_alter_le {document : Document} {heading : String} {change : Section → Section}
    {n : Nat} (h : ∀ s, (change s).weight ≤ s.weight + n) :
    weigh (document.alter heading ∅ change).entries ≤ weigh document.entries + n := by
  have hplace := weigh_place_add heading (change ((document.get? heading).getD ∅))
    document.entries
  have hchange := h ((document.get? heading).getD ∅)
  rw [← Keyed.get?] at hplace
  rw [Keyed.alter, Keyed.entries_insert]
  omega

namespace Ini

/-- How much a line can add to a document. -/
def Line.weight : Line → Nat
  | entry .. => 2
  | item .. => 1
  | _ => 0

theorem Line.weight_change_le (line : Line) (s : Section) :
    (line.change s).weight ≤ s.weight + line.weight := by
  cases line with
  | blank => exact le_rfl
  | header heading => exact le_rfl
  | entry key value => exact (s.weight_push key _).le
  | item key value => exact s.weight_pushItem_le key value

theorem weigh_step_le (r : Reading) (line : Line) :
    weigh (r.step line).document.entries ≤ weigh r.document.entries + line.weight := by
  have halter (heading : String) (line : Line) :
      weigh (r.document.alter heading ∅ line.change).entries ≤
        weigh r.document.entries + line.weight :=
    weigh_alter_le line.weight_change_le
  have hcontent (hc : line.IsContent) : weigh (r.step line).document.entries ≤
      weigh r.document.entries + line.weight := by
    rw [Reading.step_eq_alter hc, Reading.alter]
    cases r.heading with
    | none => exact Nat.le_add_right _ _
    | some heading => exact halter heading line
  cases line with
  | blank => exact le_rfl
  | header heading => exact halter heading .blank
  | entry key value => exact hcontent trivial
  | item key value => exact hcontent trivial

/-- What was read weighs no more than its lines. -/
theorem weigh_foldl_step_le (r : Reading) (ls : List Line) :
    weigh (ls.foldl Reading.step r).document.entries ≤
      weigh r.document.entries + (ls.map Line.weight).sum := by
  induction ls generalizing r with
  | nil => exact Nat.le_add_right _ _
  | cons line ls ih =>
    have hrest := ih (r.step line)
    have hline := weigh_step_le r line
    rw [List.foldl_cons, List.map_cons, List.sum_cons]
    omega

/-- An entry whose lines say the entry itself. -/
structure Legible (e : Entry) : Prop where
  nonempty : e.2 ≠ .list []
  scalar : ∀ text, e.2 = .scalar text → ¬ IsBracketed e.1
  list : ∀ items, e.2 = .list items → ∀ item ∈ items, ¬ LooksLikeHeader e.1 item

theorem map_ofChars_entryRows {e : Entry} (h : Legible e) :
    (entryRows e).map Line.ofChars = entryReading e := by
  rcases e with ⟨key, text | items⟩
  · exact congrArg (fun line => [line]) (ofChars_scalarRow text (h.scalar text rfl))
  · rw [entryRows, entryReading, List.map_map]
    exact List.map_congr_left fun item hi => ofChars_itemRow (h.list items rfl item hi)

theorem sectionReading_of_legible {e : String × Section}
    (h : ∀ entry ∈ e.2.entries, Legible entry) :
    sectionReading e = .header e.1 :: e.2.entries.flatMap entryReading := by
  rw [sectionReading, sectionRows, List.map_cons, ofChars_headerRow, List.map_flatMap,
    List.flatMap_congr fun entry he => map_ofChars_entryRows (h entry he)]

def rowsWeight (e : Entry) : Nat := ((entryRows e).map fun row => (Line.ofChars row).weight).sum

theorem rowsWeight_scalar (key text : String) :
    rowsWeight (key, .scalar text) = (Line.ofChars (scalarRow key text)).weight := by
  simp [rowsWeight, entryRows]

theorem rowsWeight_list (key : String) (items : List String) :
    rowsWeight (key, .list items) =
      (items.map fun item => (Line.ofChars (itemRow key item)).weight).sum := by
  rw [rowsWeight, entryRows, List.map_map]
  rfl

theorem weight_scalarRow_le (key text : String) :
    (Line.ofChars (scalarRow key text)).weight ≤ 2 := by
  by_cases h : IsBracketed key
  · obtain ⟨list, hl⟩ := ofChars_scalarRow_of_isBracketed text h
    rw [hl]
    exact Nat.le_succ 1
  · rw [ofChars_scalarRow text h]
    exact le_rfl

theorem weight_itemRow_le (key item : String) : (Line.ofChars (itemRow key item)).weight ≤ 1 := by
  by_cases h : LooksLikeHeader key item
  · obtain ⟨heading, hh⟩ := ofChars_itemRow_of_looksLikeHeader h
    rw [hh]
    exact Nat.zero_le 1
  · rw [ofChars_itemRow h]
    exact le_rfl

theorem rowsWeight_le (e : Entry) : rowsWeight e ≤ e.2.weight := by
  rcases e with ⟨key, text | items⟩
  · rw [rowsWeight_scalar]
    exact weight_scalarRow_le key text
  · have hsum := List.sum_le_sum (l := items) fun item _ => weight_itemRow_le key item
    rw [List.map_const', List.sum_replicate_nat, Nat.mul_one] at hsum
    rw [rowsWeight_list]
    exact hsum.trans (le_max_right _ _)

/-- An illegible entry weighs more than the lines that it takes. -/
theorem rowsWeight_lt {e : Entry} (h : ¬ Legible e) : rowsWeight e < e.2.weight := by
  rcases e with ⟨key, text | items⟩
  · have hkey : IsBracketed key := by
      by_contra hk
      exact h ⟨by simp, fun _ _ => hk, fun _ hl => by simp at hl⟩
    obtain ⟨list, hl⟩ := ofChars_scalarRow_of_isBracketed text hkey
    rw [rowsWeight_scalar, hl]
    exact Nat.lt_succ_self 1
  · by_cases hne : items = []
    · subst hne
      exact Nat.one_pos
    · obtain ⟨item, hi, hlook⟩ : ∃ item ∈ items, LooksLikeHeader key item := by
        by_contra hall
        push Not at hall
        refine h ⟨by simp [hne], fun _ hs => by simp at hs, fun items' hl item hi => ?_⟩
        obtain rfl := Value.list.inj hl
        exact hall item hi
      obtain ⟨heading, hh⟩ := ofChars_itemRow_of_looksLikeHeader hlook
      have hsum := List.sum_lt_sum (l := items)
        (fun item => (Line.ofChars (itemRow key item)).weight) (fun _ => 1)
        (fun item _ => weight_itemRow_le key item) ⟨item, hi, hh ▸ Nat.one_pos⟩
      rw [List.map_const', List.sum_replicate_nat, Nat.mul_one] at hsum
      rw [rowsWeight_list]
      exact hsum.trans_le (le_max_right _ _)

theorem sum_weight_sectionReading (e : String × Section) :
    ((sectionReading e).map Line.weight).sum = (e.2.entries.map rowsWeight).sum := by
  rw [sectionReading, sectionRows, List.map_cons, ofChars_headerRow, List.map_cons,
    List.sum_cons, List.map_map, List.map_flatMap, List.flatMap_def, List.sum_flatten,
    List.map_map]
  exact Nat.zero_add _

/-- The lines of sections weigh what the lines of their entries weigh. -/
theorem sum_weight_sectionReadings (es : List (String × Section)) :
    ((es.flatMap sectionReading).map Line.weight).sum =
      ((es.flatMap fun e => e.2.entries).map rowsWeight).sum := by
  induction es with
  | nil => rfl
  | cons e es ih =>
    rw [List.flatMap_cons, List.flatMap_cons, List.map_append, List.map_append, List.sum_append,
      List.sum_append, ih, sum_weight_sectionReading]

theorem weigh_eq (es : List (String × Section)) :
    weigh es = ((es.flatMap fun e => e.2.entries).map fun e => e.2.weight).sum := by
  rw [weigh, List.map_flatMap, List.flatMap_def, List.sum_flatten, List.map_map]
  rfl

/-- Sections that come back are legible in all their entries. -/
theorem legible_of_entries_parse {documents : List (String × Document)}
    (h : (parse (render documents true)).entries = contents documents) :
    ∀ e ∈ contents documents, ∀ entry ∈ e.2.entries, Legible entry := by
  have hread : weigh (contents documents) ≤
      (((contents documents).flatMap fun e => e.2.entries).map rowsWeight).sum := by
    have hle := weigh_foldl_step_le Reading.start ((contents documents).flatMap sectionReading)
    rw [← parseLines, ← parse_render, h, sum_weight_sectionReadings] at hle
    exact hle.trans_eq (Nat.zero_add _)
  intro e he entry hentry
  have hmem : entry ∈ (contents documents).flatMap fun e => e.2.entries :=
    List.mem_flatMap.2 ⟨e, he, hentry⟩
  by_contra hl
  have hlt := List.sum_lt_sum rowsWeight (fun e => e.2.weight) (fun e _ => rowsWeight_le e)
    ⟨entry, hmem, rowsWeight_lt hl⟩
  rw [← weigh_eq] at hlt
  exact absurd (hread.trans_lt hlt) (lt_irrefl _)

/-- Legible sections come back when their entries are gathered. -/
theorem entries_parse_of_gathered {documents : List (String × Document)}
    (hheadings : ((contents documents).map Prod.fst).Nodup)
    (hgathered : ∀ e ∈ contents documents, Section.Gathered e.2.entries)
    (hl : ∀ e ∈ contents documents, ∀ entry ∈ e.2.entries, Legible entry) :
    (parse (render documents true)).entries = contents documents := by
  have hlines : (contents documents).flatMap sectionReading =
      (contents documents).flatMap fun e => .header e.1 :: e.2.entries.flatMap entryReading :=
    List.flatMap_congr fun e he => sectionReading_of_legible (hl e he)
  rw [parse_render, parseLines, hlines]
  exact entries_foldl_step_sections (r := Reading.start) hheadings hgathered

theorem entries_parse_of_legible {documents : List (String × Document)}
    (hheadings : ((contents documents).map Prod.fst).Nodup)
    (hkeys : ∀ e ∈ contents documents, e.2.keys.Nodup)
    (hl : ∀ e ∈ contents documents, ∀ entry ∈ e.2.entries, Legible entry) :
    (parse (render documents true)).entries = contents documents :=
  entries_parse_of_gathered hheadings
    (fun e he => Section.gathered_of_nodup (hkeys e he) fun entry hentry =>
      (hl e he entry hentry).nonempty) hl

/-- Written documents, with no heading twice among them and no key twice in a section, are read
back section by section exactly when no value is an empty list, no bare key of a scalar ends in
brackets, and no item under the empty key looks like the end of a header. -/
theorem entries_parse_render_iff (documents : List (String × Document))
    (hheadings : ((contents documents).map Prod.fst).Nodup)
    (hkeys : ∀ e ∈ contents documents, e.2.keys.Nodup) :
    (parse (render documents true)).entries = contents documents ↔
      ∀ e ∈ contents documents, ∀ entry ∈ e.2.entries, Legible entry :=
  ⟨legible_of_entries_parse, entries_parse_of_legible hheadings hkeys⟩

theorem entries_parse_render_iff_hull :
    let documents : List (String × Document) := [
      ("hull", Keyed.ofList [("[Hull]", ⟨[("a=b", .scalar " 10 ; "), ("", .list ["x", "y;]"])]⟩)]),
      ("crew", Keyed.ofList [("Crew", ⟨[("Names[]", .list ["'Ann", ""]), ("", .scalar "]")]⟩)])]
    ((contents documents).map Prod.fst).Nodup ∧
      (∀ e ∈ contents documents, e.2.keys.Nodup) ∧
      ((parse (render documents true)).entries = contents documents ↔
        ∀ e ∈ contents documents, ∀ entry ∈ e.2.entries, Legible entry) := by
  intro documents
  have hheadings : ((contents documents).map Prod.fst).Nodup := by decide
  have hkeys : ∀ e ∈ contents documents, e.2.keys.Nodup := by decide
  exact ⟨hheadings, hkeys, entries_parse_render_iff documents hheadings hkeys⟩

/-- A scalar under a bare key that ends in brackets comes back as an item of a list. -/
example :
    (parse (render [("hull", Keyed.ofList [("Hull", ⟨[("Armor[]", .scalar "10")]⟩)])]
      true)).entries = [("Hull", ⟨[("Armor", .list ["10"])]⟩)] := by cbv

end Ini

end SectionCompiler
