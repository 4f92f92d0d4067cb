import SectionCompiler.Toml.Value
/-! Tables under construction. A table may come into being by its header, by a dotted key, or only
because a table inside it has a header; what may be added to it later depends on that. -/

namespace SectionCompiler.Toml

inductive Origin where
  /-- By its own header, or between braces. -/
  | defined
  /-- By the header of a table inside it. -/
  | implied
  /-- By a dotted key. -/
  | dotted
  deriving DecidableEq, Repr

inductive Item where
  | value (v : Value)
  | table (origin : Origin) (entries : List (String × Item))
  /-- The tables of headers in double brackets, the last one first. -/
  | tables (elements : List (List (String × Item)))
  deriving Repr, Inhabited

abbrev Entries := List (String × Item)

namespace Entries

/-- Puts an item in the place of its key, or at the end. -/
def place (key : String) (item : Item) : Entries → Entries
  | [] => [(key, item)]
  | (k, i) :: rest => if k = key then (k, item) :: rest else (k, i) :: place key item rest

def remove (key : String) (entries : Entries) : Entries := entries.filter (·.1 ≠ key)

def add? (key : String) (v : Value) (entries : Entries) : Option Entries :=
  if (entries.lookup key).isSome then none else some (entries ++ [(key, .value v)])

/-- Changes the table at the end of a way of headers. Missing tables on the way are implied, and
of an array of tables the last one is meant. -/
def atHeader (change : Entries → Option Entries) : List String → Entries → Option Entries
  | [], entries => change entries
  | key :: way, entries =>
    match entries.lookup key with
    | none => (atHeader change way []).map fun es => entries ++ [(key, .table .implied es)]
    | some (.value _) => none
    | some (.table origin es) =>
      (atHeader change way es).map fun es => entries.place key (.table origin es)
    | some (.tables (last :: others)) =>
      (atHeader change way last).map fun es => entries.place key (.tables (es :: others))
    | some (.tables []) => none

/-- Adds a value at the end of a dotted key. The tables on the way have to come from dotted keys. -/
def addDotted? (key : String) (v : Value) : List String → Entries → Option Entries
  | [], entries => entries.add? key v
  | part :: way, entries =>
    match entries.lookup part with
    | none => (addDotted? key v way []).map fun es => entries ++ [(part, .table .dotted es)]
    | some (.table .dotted es) =>
      (addDotted? key v way es).map fun es => entries.place part (.table .dotted es)
    | some (.table .implied es) =>
      if way = [] then none
      else (addDotted? key v way es).map fun es => entries.place part (.table .implied es)
    | some (.tables (last :: others)) =>
      if way = [] then none
      else (addDotted? key v way last).map fun es => entries.place part (.tables (es :: others))
    | some _ => none

def addKey? (parts : List String) (v : Value) (entries : Entries) : Option Entries :=
  match parts.getLast? with
  | some key => addDotted? key v parts.dropLast entries
  | none => none

/-- Adds the table of a header. A table that is only implied so far keeps what it holds and moves
to the end. -/
def openTable? (key : String) (entries : Entries) : Option Entries :=
  match entries.lookup key with
  | none => some (entries ++ [(key, .table .defined [])])
  | some (.table .implied es) => some (entries.remove key ++ [(key, .table .defined es)])
  | some _ => none

def openElement? (key : String) (entries : Entries) : Option Entries :=
  match entries.lookup key with
  | none => some (entries ++ [(key, .tables [[]])])
  | some (.tables elements) => some (entries.place key (.tables ([] :: elements)))
  | some _ => none

end Entries

mutual

def Item.toValue : Item → Value
  | .value v => v
  | .table _ entries => .table (valuesOf entries)
  | .tables elements => .array (tablesOf elements).reverse

def valuesOf : List (String × Item) → List (String × Value)
  | [] => []
  | (key, item) :: rest => (key, item.toValue) :: valuesOf rest

def tablesOf : List (List (String × Item)) → List Value
  | [] => []
  | entries :: rest => .table (valuesOf entries) :: tablesOf rest

end

end SectionCompiler.Toml
