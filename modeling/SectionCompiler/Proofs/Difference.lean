import Mathlib.Data.Finset.Dedup
import Mathlib.Data.Finset.SDiff
import Mathlib.Logic.Relation
import SectionCompiler.Comparison

/-! A comparison of two sections as a difference of sets. What the first section holds is what the
second holds, less what is missing from the first and with what is missing from the second. Only
the sets of values decide which values these are, so nothing that is done to the keys, the order or
the repetitions of entries changes them. -/

namespace SectionCompiler

namespace Section

def valueSet (s : Section) : Finset Value := s.values.toFinset

/-- One change that leaves the values of a section: an entry gets another key, entries change their
places, or an entry that is there is put in once more. -/
inductive Rearranges : Section → Section → Prop where
  | rename (before after : List Entry) (key key' : String) (value : Value) :
      Rearranges ⟨before ++ (key, value) :: after⟩ ⟨before ++ (key', value) :: after⟩
  | reorder {entries entries' : List Entry} :
      entries.Perm entries' → Rearranges ⟨entries⟩ ⟨entries'⟩
  | repeated {before after : List Entry} {e : Entry} :
      e ∈ before ++ after → Rearranges ⟨before ++ after⟩ ⟨before ++ e :: after⟩

abbrev Rearranged : Section → Section → Prop := Relation.ReflTransGen Rearranges

theorem mem_valueSet {s : Section} {value : Value} : value ∈ s.valueSet ↔ value ∈ s.values :=
  List.mem_toFinset

theorem Rearranges.valueSet_eq {s t : Section} (h : Rearranges s t) : t.valueSet = s.valueSet := by
  cases h with
  | rename before after key key' value =>
    simp only [valueSet, values, List.map_append, List.map_cons]
  | reorder hperm => exact List.toFinset_eq_of_perm _ _ (hperm.symm.map Prod.snd)
  | @repeated before after e he =>
    have hperm : (values ⟨before ++ e :: after⟩).Perm (e.2 :: values ⟨before ++ after⟩) :=
      List.perm_middle.map Prod.snd
    have hmem : e.2 ∈ valueSet ⟨before ++ after⟩ := mem_valueSet.2 (List.mem_map_of_mem he)
    rw [valueSet, List.toFinset_eq_of_perm _ _ hperm, List.toFinset_cons]
    exact Finset.insert_eq_of_mem hmem

theorem Rearranged.valueSet_eq {s t : Section} (h : Rearranged s t) : t.valueSet = s.valueSet := by
  induction h with
  | refl => rfl
  | tail _ hstep ih => rw [hstep.valueSet_eq, ih]

end Section

namespace Comparison

def swap (c : Comparison) : Comparison := ⟨c.heading, c.less, c.more⟩

/-- What is left of a list of values without those of another list, in the order in which they
stand and as often as they stand. -/
structure IsRest (values others rest : List Value) : Prop where
  sublist : rest.Sublist values
  count_eq : ∀ value, rest.count value = if value ∈ others then 0 else values.count value

structure Tells (s t : Section) (c : Comparison) : Prop where
  isEmpty_iff : c.isEmpty = true ↔ s.valueSet = t.valueSet
  eq_union : s.valueSet = (t.valueSet \ c.less.toFinset) ∪ c.more.toFinset
  disjoint_more : Disjoint c.more.toFinset t.valueSet
  disjoint_less : Disjoint c.less.toFinset s.valueSet
  isRest_more : IsRest s.values t.values c.more
  isRest_less : IsRest t.values s.values c.less

section Lists

variable {values others : List Value}

theorem mem_without {value : Value} :
    value ∈ without values others ↔ value ∈ values ∧ value ∉ others := by
  simp [without]

theorem toFinset_without :
    (without values others).toFinset = values.toFinset \ others.toFinset := by
  ext value
  simp [mem_without]

theorem isRest_without : IsRest values others (without values others) := by
  refine ⟨List.filter_sublist, fun value => ?_⟩
  split
  · next h => exact List.count_eq_zero.2 fun hm => (mem_without.1 hm).2 h
  · next h => exact List.count_filter (decide_eq_true h)

theorem without_eq_nil_iff : without values others = [] ↔ values.toFinset ⊆ others.toFinset := by
  rw [← List.toFinset_eq_empty_iff, toFinset_without, Finset.sdiff_eq_empty_iff_subset]

end Lists

variable {s t : Section} {heading : String}

theorem isEmpty_ofSections_iff :
    (ofSections heading s t).isEmpty = true ↔ s.valueSet = t.valueSet := by
  rw [isEmpty, Bool.and_eq_true, List.isEmpty_iff, List.isEmpty_iff, ofSections,
    without_eq_nil_iff, without_eq_nil_iff]
  exact Finset.Subset.antisymm_iff.symm

theorem tells_ofSections : Tells s t (ofSections heading s t) where
  isEmpty_iff := isEmpty_ofSections_iff
  eq_union := by
    rw [ofSections, toFinset_without, toFinset_without]
    change s.valueSet = t.valueSet \ (t.valueSet \ s.valueSet) ∪ s.valueSet \ t.valueSet
    rw [Finset.sdiff_sdiff_self_left, Finset.union_comm, Finset.inter_comm,
      Finset.sdiff_union_inter]
  disjoint_more := by
    rw [ofSections, toFinset_without]
    exact disjoint_sdiff_self_left
  disjoint_less := by
    rw [ofSections, toFinset_without]
    exact disjoint_sdiff_self_left
  isRest_more := isRest_without
  isRest_less := isRest_without

theorem compare_eq_ok {a b : Document} (aName bName : String) (ha : a.get? heading = some s)
    (hb : b.get? heading = some t) :
    compare a aName b bName heading = .ok (ofSections heading s t) := by
  rw [compare, sectionOf, ha, sectionOf, hb]
  rfl

/-- Comparing two documents that both have a section gives the difference of its sets of values,
from either side, and keys, order and repetitions of entries do not count for it. -/
theorem compare_as_sets {a b : Document} (aName bName : String) (ha : a.get? heading = some s)
    (hb : b.get? heading = some t) :
    ∃ c, compare a aName b bName heading = .ok c ∧ c.heading = heading ∧ Tells s t c ∧
      compare b bName a aName heading = .ok c.swap ∧
      ∀ a' b' s' t' aName' bName', a'.get? heading = some s' → b'.get? heading = some t' →
        Section.Rearranged s s' → Section.Rearranged t t' →
          ∃ c', compare a' aName' b' bName' heading = .ok c' ∧
            c'.more.toFinset = c.more.toFinset ∧ c'.less.toFinset = c.less.toFinset := by
  refine ⟨_, compare_eq_ok aName bName ha hb, rfl, tells_ofSections,
    compare_eq_ok bName aName hb ha, ?_⟩
  intro a' b' s' t' aName' bName' ha' hb' hs ht
  refine ⟨_, compare_eq_ok aName' bName' ha' hb', ?_⟩
  have hfirst : s'.values.toFinset = s.values.toFinset := hs.valueSet_eq
  have hsecond : t'.values.toFinset = t.values.toFinset := ht.valueSet_eq
  simp only [ofSections, toFinset_without, hfirst, hsecond, and_self]

def units (s : Section) : Document := Keyed.ofList [("Units", s)]

theorem get?_units (s : Section) : (units s).get? "Units" = some s := List.lookup_cons_self

def fleet : Section :=
  ⟨[("1", .scalar "Tank"), ("2", .list ["Tank"]), ("3", .scalar "Boat"), ("4", .scalar "Boat")]⟩

def formerFleet : Section := ⟨[("1", .scalar "Mine,Net"), ("2", .scalar "Tank")]⟩

/-- The former fleet in another order, with the tank twice and the net under another key. -/
def relisted : Section :=
  ⟨[("2", .scalar "Tank"), ("Trap", .scalar "Mine,Net"), ("2", .scalar "Tank")]⟩

theorem rearranged_relisted : Section.Rearranged formerFleet relisted := by
  have hrename : Section.Rearranges formerFleet
      ⟨[("Trap", .scalar "Mine,Net"), ("2", .scalar "Tank")]⟩ :=
    .rename [] [("2", .scalar "Tank")] "1" "Trap" (.scalar "Mine,Net")
  have hrepeat : Section.Rearranges ⟨[("Trap", .scalar "Mine,Net"), ("2", .scalar "Tank")]⟩
      relisted :=
    @Section.Rearranges.repeated [] _ _ (by decide)
  exact (Relation.ReflTransGen.single hrename).tail hrepeat

theorem compare_as_sets_fleets :
    (units fleet).get? "Units" = some fleet ∧
      (units formerFleet).get? "Units" = some formerFleet ∧
      (units relisted).get? "Units" = some relisted ∧
      Section.Rearranged formerFleet relisted ∧
      ∃ c, compare (units fleet) "new" (units formerFleet) "old" "Units" = .ok c ∧
        c.heading = "Units" ∧ Tells fleet formerFleet c ∧
        compare (units formerFleet) "old" (units fleet) "new" "Units" = .ok c.swap ∧
        ∃ c', compare (units fleet) "new" (units relisted) "old" "Units" = .ok c' ∧
          c'.more.toFinset = c.more.toFinset ∧ c'.less.toFinset = c.less.toFinset := by
  have hfleet := get?_units fleet
  have hformer := get?_units formerFleet
  have hrelisted := get?_units relisted
  obtain ⟨c, hc, hheading, htells, hswap, hsame⟩ := compare_as_sets "new" "old" hfleet hformer
  exact ⟨hfleet, hformer, hrelisted, rearranged_relisted, c, hc, hheading, htells, hswap,
    hsame _ _ _ _ _ _ hfleet hrelisted .refl rearranged_relisted⟩

/-- A text and the list of that text are two values, though they are printed alike. -/
example : ofSections "Units" fleet formerFleet =
    ⟨"Units", [.list ["Tank"], .scalar "Boat", .scalar "Boat"], [.scalar "Mine,Net"]⟩ := by
  decide

end Comparison

end SectionCompiler
