import SectionCompiler.Proofs.RoundTrip

/-! Reading a text, writing what was read, and reading that. What was read is gathered, so it comes
back when it is legible. Two kinds of lines leave what is not: a key in double quotes that ends in
brackets, whose entry is a scalar, and an item under the empty key that ends in a bracket. -/

namespace SectionCompiler

theorem Keyed.mem_place {α : Type} {key : String} {value : α} {entries : List (String × α)}
    {e : String × α} (h : e ∈ place key value entries) : e = (key, value) ∨ e ∈ entries := by
  induction entries with
  | nil => exact Or.inl (List.mem_singleton.1 h)
  | cons first rest ih =>
    rw [place] at h
    split at h
    · exact (List.mem_cons.1 h).imp_right (List.mem_cons_of_mem _)
    · rcases List.mem_cons.1 h with rfl | h
      · exact Or.inr List.mem_cons_self
      · exact (ih h).imp_right (List.mem_cons_of_mem _)

namespace Section

variable {es before after : List Entry} {key : String} {items : List String}

theorem get?_concat (es : List Entry) (e : Entry) (k : String) :
    get? ⟨es ++ [e]⟩ k = if k = e.1 then some e.2 else get? ⟨es⟩ k :=
  get?_append_cons es [] e.1 k e.2

theorem gathered_concat_iff {e : Entry} : Gathered (es ++ [e]) ↔ Gathered es ∧
    ∀ items, e.2 = .list items → items ≠ [] ∧ ∀ items', get? ⟨es⟩ e.1 ≠ some (.list items') := by
  constructor
  · intro h
    generalize hall : es ++ [e] = all at h
    cases h with
    | nil => simp at hall
    | scalar key text hes =>
      obtain ⟨rfl, he⟩ := List.append_inj' hall rfl
      obtain rfl := List.singleton_inj.1 he
      exact ⟨hes, by simp⟩
    | list hes hlast hne =>
      obtain ⟨rfl, he⟩ := List.append_inj' hall rfl
      obtain rfl := List.singleton_inj.1 he
      refine ⟨hes, fun items hitems => ?_⟩
      obtain rfl := Value.list.inj hitems
      exact ⟨hne, hlast⟩
  · rintro ⟨hes, hlist⟩
    rcases e with ⟨key, text | items⟩
    · exact .scalar key text hes
    · obtain ⟨hne, hlast⟩ := hlist items rfl
      exact .list hes hlast hne

/-- A list that grows stays where it is, and the entries stay gathered. -/
theorem gathered_extend (h : Gathered (before ++ (key, .list items) :: after))
    (hlast : get? ⟨after⟩ key = none) (item : String) :
    Gathered (before ++ (key, .list (items ++ [item])) :: after) := by
  induction after using List.reverseRecOn with
  | nil =>
    obtain ⟨hbefore, hlist⟩ := gathered_concat_iff.1 h
    exact .list hbefore (hlist items rfl).2 (by simp)
  | append_singleton after e ih =>
    rw [get?_concat] at hlast
    obtain ⟨hne, hafter⟩ : e.1 ≠ key ∧ get? ⟨after⟩ key = none := by
      split at hlast
      · exact absurd hlast (Option.some_ne_none _)
      · next hne => exact ⟨Ne.symm hne, hlast⟩
    rw [← List.cons_append, ← List.append_assoc, gathered_concat_iff] at h ⊢
    refine ⟨ih h.1 hafter, fun items' hitems => ?_⟩
    obtain ⟨hsome, hnone⟩ := h.2 items' hitems
    rw [get?_append_cons, if_neg hne] at hnone ⊢
    exact ⟨hsome, hnone⟩

theorem gathered_pushItem {s : Section} (h : Gathered s.entries) (key item : String) :
    Gathered (s.pushItem key item).entries := by
  by_cases hlist : ∃ items, s.get? key = some (.list items)
  · obtain ⟨items, hitems⟩ := hlist
    obtain ⟨before, after, hsplit, hlast⟩ := exists_split_of_get? hitems
    obtain rfl := Section.ext hsplit
    rw [pushItem_append_cons before items item hlast]
    exact gathered_extend h hlast item
  · push Not at hlist
    rw [pushItem_of_get?_ne hlist]
    exact .list h hlist (by simp)

end Section

namespace Ini

theorem gathered_change {s : Section} (h : Section.Gathered s.entries) (line : Line) :
    Section.Gathered (line.change s).entries := by
  cases line with
  | blank => exact h
  | header heading => exact h
  | entry key value => exact .scalar key value h
  | item key value => exact Section.gathered_pushItem h key value

def Gathered (document : Document) : Prop :=
  ∀ e ∈ document.entries, Section.Gathered e.2.entries

theorem gathered_alter {document : Document} (h : Gathered document) (heading : String)
    {change : Section → Section}
    (hchange : ∀ s : Section, Section.Gathered s.entries → Section.Gathered (change s).entries) :
    Gathered (document.alter heading ∅ change) := by
  intro e he
  rw [Keyed.alter, Keyed.entries_insert] at he
  rcases Keyed.mem_place he with rfl | he
  · refine hchange _ ?_
    cases hfound : document.get? heading with
    | none => exact .nil
    | some content => exact h _ (Keyed.get?_eq_some_iff.1 hfound)
  · exact h e he

theorem gathered_step {r : Reading} (h : Gathered r.document) (line : Line) :
    Gathered (r.step line).document := by
  have hcontent (hc : line.IsContent) : Gathered (r.step line).document := by
    rw [Reading.step_eq_alter hc, Reading.alter]
    cases r.heading with
    | none => exact h
    | some heading => exact gathered_alter h heading fun _ hs => gathered_change hs line
  cases line with
  | blank => exact h
  | header heading => exact gathered_alter h heading fun _ hs => hs
  | entry key value => exact hcontent trivial
  | item key value => exact hcontent trivial

theorem gathered_foldl_step {r : Reading} (h : Gathered r.document) (ls : List Line) :
    Gathered (ls.foldl Reading.step r).document := by
  induction ls generalizing r with
  | nil => exact h
  | cons line ls ih => exact ih (gathered_step h line)

theorem gathered_parse (text : String) : Gathered (parse text) :=
  gathered_foldl_step (fun _ he => absurd he List.not_mem_nil) _

/-- What was read of a text is written and read back to the same document, whatever name it is
written under, exactly when no bare key of a scalar ends in brackets and no item under the empty key
looks like the end of a header. -/
theorem parse_render_parse_iff (text name : String) :
    parse (render [(name, parse text)] true) = parse text ↔
      ∀ e ∈ (parse text).entries, ∀ entry ∈ e.2.entries, Legible entry := by
  have hcontents : contents [(name, parse text)] = (parse text).entries := by
    rw [contents, List.flatMap_singleton]
  rw [Keyed.ext_iff, ← hcontents]
  refine ⟨legible_of_entries_parse, entries_parse_of_gathered ?_ ?_⟩
  · rw [hcontents]
    exact (parse text).nodup
  · rw [hcontents]
    exact gathered_parse text

/-- A key in double quotes that ends in brackets is read as the key of a scalar and written
without its quotes, which makes it a list. -/
theorem quoted_list_key_not_read_back :
    parse (render [("hull", parse "[Hull]\n\"Armor[]\"=1\n")] true) ≠
      parse "[Hull]\n\"Armor[]\"=1\n" := by
  decide +kernel

/-- An item under the empty key turns into a header when it ends in a bracket. -/
example :
    (parse (render [("hull", parse "[Hull]\n\"\"[]=x]\n")] true)).keys = ["Hull", "]=x"] := by
  decide +kernel

end Ini

end SectionCompiler
