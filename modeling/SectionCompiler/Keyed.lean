/-! A map whose entries stand in the order in which their keys first came in. Storing under a
key that is present replaces the value and keeps the place. -/

namespace SectionCompiler

theorem lookup_cons_if {α : Type} (key k : String) (value : α) (rest : List (String × α)) :
    ((k, value) :: rest).lookup key = if key = k then some value else rest.lookup key := by
  by_cases h : key = k
  · simp [h]
  · have hb : (key == k) = false := beq_false_of_ne h
    simp [List.lookup_cons, hb, h]

/-- Entries with pairwise distinct keys, in order of first insertion. -/
@[ext] structure Keyed (α : Type) where
  entries : List (String × α)
  nodup : (entries.map Prod.fst).Nodup
  deriving DecidableEq, Repr

namespace Keyed

variable {α : Type}

def place (key : String) (value : α) : List (String × α) → List (String × α)
  | [] => [(key, value)]
  | (k, v) :: rest => if k = key then (key, value) :: rest else (k, v) :: place key value rest

theorem map_fst_place (key : String) (value : α) (entries : List (String × α)) :
    (place key value entries).map Prod.fst =
      if key ∈ entries.map Prod.fst then entries.map Prod.fst
      else entries.map Prod.fst ++ [key] := by
  induction entries with
  | nil => simp [place]
  | cons e rest ih =>
    obtain ⟨k, v⟩ := e
    by_cases h : k = key
    · simp [place, h]
    · have h2 : ¬ key = k := fun he => h he.symm
      by_cases hm : key ∈ rest.map Prod.fst <;> simp_all [place]

theorem nodup_place {key : String} {value : α} {entries : List (String × α)}
    (h : (entries.map Prod.fst).Nodup) : ((place key value entries).map Prod.fst).Nodup := by
  rw [map_fst_place]
  split
  · exact h
  · next hm => exact List.nodup_append.2 ⟨h, by simp, by intro a ha b hb; grind⟩

def empty : Keyed α := ⟨[], by simp⟩

instance : EmptyCollection (Keyed α) := ⟨empty⟩

instance : Inhabited (Keyed α) := ⟨empty⟩

def insert (m : Keyed α) (key : String) (value : α) : Keyed α :=
  ⟨place key value m.entries, nodup_place m.nodup⟩

def get? (m : Keyed α) (key : String) : Option α := m.entries.lookup key

def keys (m : Keyed α) : List String := m.entries.map Prod.fst

def size (m : Keyed α) : Nat := m.entries.length

/-- Inserts the entries one after another, so the last value of a repeated key wins. -/
def ofList (entries : List (String × α)) : Keyed α :=
  entries.foldl (fun m e => m.insert e.1 e.2) ∅

/-- Changes the value of a key, which starts from `fresh` when the key is new. -/
def alter (m : Keyed α) (key : String) (fresh : α) (change : α → α) : Keyed α :=
  m.insert key (change ((m.get? key).getD fresh))

@[simp] theorem entries_empty : (∅ : Keyed α).entries = [] := rfl

@[simp] theorem entries_insert (m : Keyed α) (key : String) (value : α) :
    (m.insert key value).entries = place key value m.entries := rfl

theorem lookup_place (key k : String) (value : α) (entries : List (String × α)) :
    (place key value entries).lookup k = if k = key then some value else entries.lookup k := by
  induction entries with
  | nil => simp [place, lookup_cons_if]
  | cons e rest ih =>
    obtain ⟨first, v⟩ := e
    by_cases h : first = key
    · simp only [place, h, if_true, lookup_cons_if]
      split <;> rfl
    · simp only [place, h, if_false, lookup_cons_if, ih]
      by_cases hk : k = first
      · simp [hk, h]
      · simp [hk]

@[simp] theorem get?_insert (m : Keyed α) (key k : String) (value : α) :
    (m.insert key value).get? k = if k = key then some value else m.get? k :=
  lookup_place key k value m.entries

end Keyed

end SectionCompiler
