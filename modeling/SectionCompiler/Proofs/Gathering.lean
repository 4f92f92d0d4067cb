import Mathlib.Data.List.Induction
import SectionCompiler.Ini.Reader
import SectionCompiler.Proofs.Maps

/-! Gathering lines into a document. The lines after a header all change the one section, and the
lines of gathered entries put just these entries into it: an item goes on with the list that its key
has last. -/

namespace SectionCompiler

namespace Section

variable {es before after : List Entry} {key k item : String} {value : Value}
  {items : List String}

theorem get?_append_cons (before after : List Entry) (key k : String) (value : Value) :
    get? ⟨before ++ (key, value) :: after⟩ k =
      (get? ⟨after⟩ k).or (if k = key then some value else get? ⟨before⟩ k) := by
  rw [get?, List.reverse_append, List.reverse_cons, List.append_assoc, List.lookup_append,
    List.singleton_append, lookup_cons_if]
  rfl

theorem get?_cons (e : Entry) (es : List Entry) (k : String) :
    get? ⟨e :: es⟩ k = (get? ⟨es⟩ k).or (if k = e.1 then some e.2 else none) :=
  get?_append_cons [] es e.1 k e.2

theorem any_key_eq (es : List Entry) (key : String) :
    es.any (·.1 == key) = (get? ⟨es⟩ key).isSome := by
  induction es with
  | nil => rfl
  | cons e rest ih =>
    rw [List.any_cons, ih, get?_cons, Option.isSome_or, Bool.or_comm]
    by_cases h : key = e.1
    · simp [h]
    · simp [h, Ne.symm h]

theorem get?_eq_none_of_not_mem (h : key ∉ es.map Prod.fst) : get? ⟨es⟩ key = none := by
  rw [← Option.not_isSome_iff_eq_none, ← any_key_eq, List.any_eq_true]
  rintro ⟨e, he, hk⟩
  exact h (List.mem_map.2 ⟨e, he, eq_of_beq hk⟩)

/-- The last entry of a key splits the entries. -/
theorem exists_split_of_get? (h : get? ⟨es⟩ key = some value) :
    ∃ before after, es = before ++ (key, value) :: after ∧ get? ⟨after⟩ key = none := by
  induction es with
  | nil => exact absurd h (by simp [get?])
  | cons e rest ih =>
    rw [get?_cons] at h
    cases hrest : get? ⟨rest⟩ key with
    | some v =>
      rw [hrest, Option.some_or] at h
      obtain ⟨before, after, rfl, hafter⟩ := ih (hrest.trans h)
      exact ⟨e :: before, after, rfl, hafter⟩
    | none =>
      rw [hrest, Option.none_or] at h
      obtain ⟨hkey, hvalue⟩ := Option.ite_some_none_eq_some.1 h
      exact ⟨[], rest, by rw [hkey, ← hvalue]; rfl, hrest⟩

/-- An item goes to the last entry of its key when that is a list. -/
theorem extendLast?_append_cons (before : List Entry) (items : List String) (item : String)
    (h : get? ⟨after⟩ key = none) :
    extendLast? key item (before ++ (key, .list items) :: after) =
      some (before ++ (key, .list (items ++ [item])) :: after) := by
  induction before with
  | nil => simp [extendLast?, any_key_eq, h]
  | cons e rest ih =>
    have hany : (rest ++ (key, Value.list items) :: after).any (·.1 == key) = true := by simp
    rw [List.cons_append, extendLast?.eq_def]
    dsimp only
    rw [if_pos hany, ih]
    rfl

theorem extendLast?_eq_none (h : ∀ items, get? ⟨es⟩ key ≠ some (.list items)) (item : String) :
    extendLast? key item es = none := by
  induction es with
  | nil => rfl
  | cons e rest ih =>
    obtain ⟨k, v⟩ := e
    rw [extendLast?.eq_def]
    dsimp only
    rw [any_key_eq]
    cases hrest : get? ⟨rest⟩ key with
    | some w =>
      simp only [get?_cons, hrest, Option.some_or] at h ih
      rw [Option.isSome_some, if_pos rfl, ih h, Option.map_none]
    | none =>
      rw [Option.isSome_none, if_neg Bool.false_ne_true]
      split
      · next hk =>
        cases v with
        | scalar text => rfl
        | list items => exact absurd (by simp [get?_cons, hrest, hk]) (h items)
      · rfl

theorem pushItem_of_get?_ne {s : Section} (h : ∀ items, s.get? key ≠ some (.list items))
    (item : String) : s.pushItem key item = s.push key (.list [item]) := by
  rw [pushItem, extendLast?_eq_none h]

theorem pushItem_append_cons (before : List Entry) (items : List String) (item : String)
    (h : get? ⟨after⟩ key = none) :
    pushItem ⟨before ++ (key, .list items) :: after⟩ key item =
      ⟨before ++ (key, .list (items ++ [item])) :: after⟩ := by
  rw [pushItem, extendLast?_append_cons before items item h]

theorem foldl_pushItem (key : String) (es : List Entry) (items more : List String) :
    more.foldl (fun s item => s.pushItem key item) ⟨es ++ [(key, .list items)]⟩ =
      (⟨es ++ [(key, .list (items ++ more))]⟩ : Section) := by
  induction more generalizing items with
  | nil => rw [List.append_nil]; rfl
  | cons item more ih =>
    rw [List.foldl_cons, pushItem_append_cons es items item rfl, ih, List.append_assoc,
      List.singleton_append]

/-- No list is empty, and none comes when the last entry of its key is a list already. -/
inductive Gathered : List Entry → Prop where
  | nil : Gathered []
  | scalar {es : List Entry} (key text : String) :
      Gathered es → Gathered (es ++ [(key, .scalar text)])
  | list {es : List Entry} {key : String} {items : List String} :
      Gathered es → (∀ items', get? ⟨es⟩ key ≠ some (.list items')) → items ≠ [] →
      Gathered (es ++ [(key, .list items)])

theorem gathered_of_nodup (hkeys : (es.map Prod.fst).Nodup) (hne : ∀ e ∈ es, e.2 ≠ .list []) :
    Gathered es := by
  induction es using List.reverseRecOn with
  | nil => exact .nil
  | append_singleton es e ih =>
    rw [List.map_append, List.nodup_append] at hkeys
    have hes := ih hkeys.1 fun e he => hne e (List.mem_append_left _ he)
    rcases e with ⟨key, text | items⟩
    · exact .scalar key text hes
    · have hfresh : key ∉ es.map Prod.fst := fun hm =>
        hkeys.2.2 _ hm _ List.mem_cons_self rfl
      refine .list hes (by simp [get?_eq_none_of_not_mem hfresh]) ?_
      rintro rfl
      exact hne _ (List.mem_append_right _ List.mem_cons_self) rfl

end Section

namespace Ini

/-- What a line does to the section that it stands in. -/
def Line.change : Line → Section → Section
  | entry key value, s => s.push key (.scalar value)
  | item key value, s => s.pushItem key value
  | _, s => s

def Line.IsContent : Line → Prop
  | entry .. => True
  | item .. => True
  | _ => False

def entryReading : Entry → List Line
  | (key, .scalar text) => [.entry key text]
  | (key, .list items) => items.map (.item key)

theorem isContent_of_mem_entryReading {e : Entry} {line : Line} (h : line ∈ entryReading e) :
    line.IsContent := by
  rcases e with ⟨key, text | items⟩
  · obtain rfl := List.mem_singleton.1 h
    trivial
  · obtain ⟨item, -, rfl⟩ := List.mem_map.1 h
    trivial

theorem Reading.step_eq_alter {line : Line} (h : line.IsContent) (r : Reading) :
    r.step line = r.alter line.change := by
  cases line with
  | blank => exact absurd h not_false
  | header heading => exact absurd h not_false
  | entry key value => rfl
  | item key value => rfl

/-- The lines under a header change its section one after another. -/
theorem foldl_step_of_isContent {ls : List Line} (h : ∀ line ∈ ls, line.IsContent)
    (document : Document) (heading : String) (change : Section → Section) :
    ls.foldl Reading.step ⟨document.alter heading ∅ change, some heading⟩ =
      ⟨document.alter heading ∅ fun s => ls.foldl (fun s line => line.change s) (change s),
        some heading⟩ := by
  induction ls generalizing change with
  | nil => rfl
  | cons line ls ih =>
    obtain ⟨hline, hls⟩ := List.forall_mem_cons.1 h
    rw [List.foldl_cons, Reading.step_eq_alter hline, Reading.alter]
    dsimp only
    rw [Keyed.alter_alter, ih hls]
    rfl

theorem foldl_change_items {done : List Entry} {key : String} {items : List String}
    (h : ∀ items', Section.get? ⟨done⟩ key ≠ some (.list items')) (hne : items ≠ []) :
    (entryReading (key, .list items)).foldl (fun s line => line.change s) ⟨done⟩ =
      ⟨done ++ [(key, .list items)]⟩ := by
  cases items with
  | nil => exact absurd rfl hne
  | cons item items =>
    have hfirst : Section.pushItem ⟨done⟩ key item = ⟨done ++ [(key, .list [item])]⟩ :=
      Section.pushItem_of_get?_ne h item
    rw [entryReading, List.foldl_map, List.foldl_cons]
    simp only [Line.change, hfirst]
    exact Section.foldl_pushItem key done [item] items

/-- The lines of gathered entries put just these entries into a section. -/
theorem foldl_change_entryReadings {es : List Entry} (h : Section.Gathered es) :
    (es.flatMap entryReading).foldl (fun s line => line.change s) ∅ = ⟨es⟩ := by
  induction h with
  | nil => rfl
  | scalar key text _ ih =>
    rw [List.flatMap_append, List.foldl_append, ih]
    rfl
  | @list es key items _ hlast hne ih =>
    rw [List.flatMap_append, List.foldl_append, ih, List.flatMap_singleton]
    exact foldl_change_items hlast hne

/-- A header and the lines of its entries add one section to a document. -/
theorem entries_foldl_step_section {r : Reading} {heading : String} {content : Section}
    (hnew : heading ∉ r.document.keys) (hgathered : Section.Gathered content.entries) :
    ((Line.header heading :: content.entries.flatMap entryReading).foldl
      Reading.step r).document.entries = r.document.entries ++ [(heading, content)] := by
  have hlines : ∀ line ∈ content.entries.flatMap entryReading, line.IsContent := by
    intro line hl
    obtain ⟨e, -, he⟩ := List.mem_flatMap.1 hl
    exact isContent_of_mem_entryReading he
  rw [List.foldl_cons, Reading.step, foldl_step_of_isContent hlines,
    Keyed.entries_alter_of_not_mem _ _ hnew]
  have hcontent : (content.entries.flatMap entryReading).foldl (fun s line => line.change s) ∅ =
      content :=
    foldl_change_entryReadings hgathered
  exact congrArg (fun c => r.document.entries ++ [(heading, c)]) hcontent

/-- Sections under distinct headings are added one after another. -/
theorem entries_foldl_step_sections {r : Reading} {es : List (String × Section)}
    (hnew : (r.document.keys ++ es.map Prod.fst).Nodup)
    (hgathered : ∀ e ∈ es, Section.Gathered e.2.entries) :
    ((es.flatMap fun e => .header e.1 :: e.2.entries.flatMap entryReading).foldl
      Reading.step r).document.entries = r.document.entries ++ es := by
  induction es generalizing r with
  | nil => exact (List.append_nil _).symm
  | cons e es ih =>
    obtain ⟨hfirst, hgathered⟩ := List.forall_mem_cons.1 hgathered
    have hfresh : e.1 ∉ r.document.keys := fun hm =>
      (List.nodup_append.1 hnew).2.2 _ hm _ List.mem_cons_self rfl
    have hsection := entries_foldl_step_section hfresh hfirst
    rw [List.flatMap_cons, List.foldl_append, ih ?_ hgathered, hsection, List.append_assoc,
      List.singleton_append]
    rw [Keyed.keys, hsection]
    simpa [Keyed.keys] using hnew

end Ini

end SectionCompiler
