import SectionCompiler.Section

/-! Looking up in the two kinds of maps. Under distinct keys a value is found exactly where it
stands, so looking up and membership say the same. -/

namespace SectionCompiler

theorem lookup_eq_some_iff_mem {α : Type} {entries : List (String × α)} {key : String} {value : α}
    (h : (entries.map Prod.fst).Nodup) :
    entries.lookup key = some value ↔ (key, value) ∈ entries := by
  induction entries with
  | nil => simp
  | cons e rest ih =>
    obtain ⟨k, v⟩ := e
    obtain ⟨hk, hr⟩ := List.nodup_cons.1 h
    rw [lookup_cons_if, List.mem_cons, Prod.mk.injEq]
    split
    · next he =>
      subst he
      have hn : (key, value) ∉ rest := fun hm => hk (List.mem_map.2 ⟨_, hm, rfl⟩)
      simp [hn, eq_comm]
    · next hne => simp [ih hr, hne]

namespace Keyed

variable {α : Type}

theorem get?_eq_some_iff {m : Keyed α} {key : String} {value : α} :
    m.get? key = some value ↔ (key, value) ∈ m.entries :=
  lookup_eq_some_iff_mem m.nodup

theorem mem_keys_iff {m : Keyed α} {key : String} :
    key ∈ m.keys ↔ ∃ value, m.get? key = some value := by
  simp [keys, get?_eq_some_iff]

theorem get?_eq_none_iff {m : Keyed α} {key : String} : m.get? key = none ↔ key ∉ m.keys := by
  rw [mem_keys_iff, ← Option.isSome_iff_exists, Bool.not_eq_true, Option.isSome_eq_false_iff,
    Option.isNone_iff_eq_none]

theorem entries_of_keys_eq_singleton {m : Keyed α} {key : String} (h : m.keys = [key]) :
    ∃ value, m.get? key = some value ∧ m.entries = [(key, value)] := by
  obtain ⟨⟨k, value⟩, hentries, rfl⟩ := List.map_eq_singleton_iff.1 h
  refine ⟨value, get?_eq_some_iff.2 ?_, hentries⟩
  rw [hentries]
  exact List.mem_cons_self

theorem place_place (key : String) (value value' : α) (entries : List (String × α)) :
    place key value' (place key value entries) = place key value' entries := by
  induction entries with
  | nil => simp [place]
  | cons e rest ih =>
    by_cases h : e.1 = key
    · simp [place, h]
    · simp [place, h, ih]

theorem place_of_not_mem {key : String} (value : α) {entries : List (String × α)}
    (h : key ∉ entries.map Prod.fst) : place key value entries = entries ++ [(key, value)] := by
  induction entries with
  | nil => rfl
  | cons e rest ih =>
    obtain ⟨hne, hrest⟩ := List.ne_and_not_mem_of_not_mem_cons h
    rw [place, if_neg (Ne.symm hne), ih hrest, List.cons_append]

theorem alter_alter (m : Keyed α) (key : String) (fresh : α) (change change' : α → α) :
    (m.alter key fresh change).alter key fresh change' =
      m.alter key fresh fun value => change' (change value) := by
  refine Keyed.ext ?_
  simp only [alter, get?_insert, if_true, Option.getD_some, entries_insert, place_place]

theorem keys_alter (m : Keyed α) (key : String) (fresh : α) (change : α → α) :
    (m.alter key fresh change).keys = if key ∈ m.keys then m.keys else m.keys ++ [key] :=
  map_fst_place key _ m.entries

theorem getD_alter (m : Keyed α) (key k : String) (fresh : α) (change : α → α) :
    ((m.alter key fresh change).get? k).getD fresh =
      if k = key then change ((m.get? k).getD fresh) else (m.get? k).getD fresh := by
  rw [alter, get?_insert]
  by_cases h : k = key
  · rw [if_pos h, if_pos h, Option.getD_some, h]
  · rw [if_neg h, if_neg h]

theorem entries_alter_of_not_mem {m : Keyed α} {key : String} (fresh : α) (change : α → α)
    (h : key ∉ m.keys) :
    (m.alter key fresh change).entries = m.entries ++ [(key, change fresh)] := by
  rw [alter, get?_eq_none_iff.2 h, entries_insert, place_of_not_mem _ h]
  rfl

end Keyed

namespace Catalog

variable {α : Type}

theorem nodup_names (m : Catalog α) : m.names.Nodup := by
  refine List.pairwise_map.2 (m.sorted.imp fun h => ?_)
  exact fun he => String.lt_irrefl _ (he ▸ h)

theorem get?_eq_some_iff {m : Catalog α} {name : String} {value : α} :
    m.get? name = some value ↔ (name, value) ∈ m.entries :=
  lookup_eq_some_iff_mem m.nodup_names

theorem mem_names_iff {m : Catalog α} {name : String} :
    name ∈ m.names ↔ ∃ value, m.get? name = some value := by
  simp [names, get?_eq_some_iff]

theorem mem_names_insert {m : Catalog α} {name n : String} {value : α} :
    n ∈ (m.insert name value).names ↔ n = name ∨ n ∈ m.names := by
  rw [mem_names_iff, mem_names_iff, get?_insert]
  by_cases h : n = name <;> simp [h]

end Catalog

end SectionCompiler
