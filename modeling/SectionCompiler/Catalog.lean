import SectionCompiler.Keyed
/-! A map whose entries stand in ascending order of their names. Names are compared character by
character, which is also the order of their UTF-8 bytes. -/

namespace SectionCompiler

/-- Entries with strictly ascending names. -/
@[ext] structure Catalog (α : Type) where
  entries : List (String × α)
  sorted : entries.Pairwise (fun a b => a.1 < b.1)
  deriving DecidableEq, Repr

namespace Catalog

variable {α : Type}

/-- Puts a value in the place of its name, replacing the value that the name had. -/
def place (name : String) (value : α) : List (String × α) → List (String × α)
  | [] => [(name, value)]
  | (n, v) :: rest =>
    if name < n then (name, value) :: (n, v) :: rest
    else if n = name then (name, value) :: rest
    else (n, v) :: place name value rest

theorem mem_place {name : String} {value : α} {entries : List (String × α)} {e : String × α}
    (h : e ∈ place name value entries) : e = (name, value) ∨ e ∈ entries := by
  induction entries with
  | nil => simpa [place] using h
  | cons first rest ih =>
    obtain ⟨n, v⟩ := first
    simp only [place] at h
    split at h
    · simpa using h
    · split at h
      · rcases List.mem_cons.1 h with h | h
        · exact Or.inl h
        · exact Or.inr (List.mem_cons_of_mem _ h)
      · rcases List.mem_cons.1 h with h | h
        · exact Or.inr (h ▸ List.mem_cons_self)
        · exact (ih h).imp id (List.mem_cons_of_mem _)

theorem lt_of_not_lt_of_ne {a b : String} (h : ¬ a < b) (hne : b ≠ a) : b < a := by
  refine Decidable.byContradiction fun hba => hne ?_
  exact String.le_antisymm (String.not_lt.1 h) (String.not_lt.1 hba)

theorem sorted_place {name : String} {value : α} {entries : List (String × α)}
    (h : entries.Pairwise (fun a b => a.1 < b.1)) :
    (place name value entries).Pairwise (fun a b => a.1 < b.1) := by
  induction entries with
  | nil => simp [place]
  | cons first rest ih =>
    obtain ⟨n, v⟩ := first
    rw [List.pairwise_cons] at h
    simp only [place]
    split
    · next hlt =>
      refine List.pairwise_cons.2 ⟨?_, List.pairwise_cons.2 h⟩
      intro e he
      rcases List.mem_cons.1 he with rfl | he
      · exact hlt
      · exact String.lt_trans hlt (h.1 e he)
    · next hlt =>
      split
      · next heq => exact List.pairwise_cons.2 ⟨fun e he => heq ▸ h.1 e he, h.2⟩
      · next hne =>
        refine List.pairwise_cons.2 ⟨?_, ih h.2⟩
        intro e he
        rcases mem_place he with rfl | he
        · exact lt_of_not_lt_of_ne hlt hne
        · exact h.1 e he

def empty : Catalog α := ⟨[], List.Pairwise.nil⟩

instance : EmptyCollection (Catalog α) := ⟨empty⟩

instance : Inhabited (Catalog α) := ⟨empty⟩

def insert (m : Catalog α) (name : String) (value : α) : Catalog α :=
  ⟨place name value m.entries, sorted_place m.sorted⟩

def get? (m : Catalog α) (name : String) : Option α := m.entries.lookup name

def contains (m : Catalog α) (name : String) : Bool := (m.get? name).isSome

def names (m : Catalog α) : List String := m.entries.map Prod.fst

def size (m : Catalog α) : Nat := m.entries.length

def ofList (entries : List (String × α)) : Catalog α :=
  entries.foldl (fun m e => m.insert e.1 e.2) ∅

@[simp] theorem entries_empty : (∅ : Catalog α).entries = [] := rfl

theorem lookup_place (name n : String) (value : α) (entries : List (String × α)) :
    (place name value entries).lookup n = if n = name then some value else entries.lookup n := by
  induction entries with
  | nil => simp [place, lookup_cons_if]
  | cons e rest ih =>
    obtain ⟨first, v⟩ := e
    simp only [place]
    split
    · rw [lookup_cons_if]
    · by_cases h : first = name
      · simp only [h, if_true, lookup_cons_if]
        split <;> rfl
      · simp only [h, if_false, lookup_cons_if, ih]
        by_cases hn : n = first
        · simp [hn, h]
        · simp [hn]

@[simp] theorem get?_insert (m : Catalog α) (name n : String) (value : α) :
    (m.insert name value).get? n = if n = name then some value else m.get? n :=
  lookup_place name n value m.entries

@[simp] theorem get?_empty (n : String) : (∅ : Catalog α).get? n = none := rfl

end Catalog

end SectionCompiler
