import SectionCompiler.Catalog
import SectionCompiler.Value
/-! A section: entries in order, in which a key may stand more than once. Folding a section leaves
each key once. -/

namespace SectionCompiler

abbrev Entry := String × Value

@[ext] structure Section where
  entries : List Entry
  deriving DecidableEq, Repr, Inhabited

namespace Section

def empty : Section := ⟨[]⟩

instance : EmptyCollection Section := ⟨empty⟩

def push (s : Section) (key : String) (value : Value) : Section := ⟨s.entries ++ [(key, value)]⟩

def append (s t : Section) : Section := ⟨s.entries ++ t.entries⟩

instance : Append Section := ⟨append⟩

def keys (s : Section) : List String := s.entries.map Prod.fst

def values (s : Section) : List Value := s.entries.map Prod.snd

def size (s : Section) : Nat := s.entries.length

/-- The value of the last entry with a key. -/
def get? (s : Section) (key : String) : Option Value := s.entries.reverse.lookup key

/-- Adds an item to the last entry of a key, when there is one and it holds a list. -/
def extendLast? (key item : String) : List Entry → Option (List Entry)
  | [] => none
  | (k, v) :: rest =>
    if rest.any (·.1 == key) then (extendLast? key item rest).map ((k, v) :: ·)
    else if k = key then
      match v with
      | .list items => some ((k, .list (items ++ [item])) :: rest)
      | .scalar _ => none
    else none

/-- Adds an item to the list that the last entry of a key holds. A new list starts when the key
has no entry or its last entry is a scalar. -/
def pushItem (s : Section) (key item : String) : Section :=
  match extendLast? key item s.entries with
  | some entries => ⟨entries⟩
  | none => s.push key (.list [item])

/-- Leaves each key once, at the place of its first entry and with the value of its last. -/
def fold (s : Section) : Section := ⟨(Keyed.ofList s.entries).entries⟩

@[simp] theorem entries_empty : (∅ : Section).entries = [] := rfl

@[simp] theorem entries_push (s : Section) (key : String) (value : Value) :
    (s.push key value).entries = s.entries ++ [(key, value)] := rfl

@[simp] theorem entries_append (s t : Section) : (s ++ t).entries = s.entries ++ t.entries := rfl

theorem nodup_keys_fold (s : Section) : s.fold.keys.Nodup := (Keyed.ofList s.entries).nodup

end Section

/-- A document: sections by name, in the order in which the names first came in. -/
abbrev Document := Keyed Section

/-- Documents by name, in ascending order of their names. -/
abbrev Library := Catalog Document

end SectionCompiler
