import Mathlib.Data.List.Forall2
import Mathlib.Data.List.Induction
import Mathlib.Data.List.Nodup
import SectionCompiler.Proofs.Maps

/-! Laws of folding. A folded section is told by two things: its keys in the order of their first
entries, and the value of the last entry of each key. Appending keeps both, so it is the same to
fold a section before it goes into another one and to fold only at the end. -/

namespace SectionCompiler

theorem eraseDups_filter (p : String → Bool) (xs : List String) :
    (xs.filter p).eraseDups = xs.eraseDups.filter p := by
  cases xs with
  | nil => rfl
  | cons x rest =>
    have hrest := eraseDups_filter p (rest.filter (! · == x))
    rw [List.eraseDups_cons]
    by_cases hx : p x
    · rw [List.filter_cons_of_pos hx, List.filter_cons_of_pos hx, List.eraseDups_cons, ← hrest,
        List.filter_filter, List.filter_filter]
      simp only [Bool.and_comm]
    · have hp : (rest.filter (! · == x)).filter p = rest.filter p := by
        rw [List.filter_filter]
        refine List.filter_congr fun y _ => ?_
        by_cases hy : y = x <;> simp [hy, hx]
      rw [List.filter_cons_of_neg hx, List.filter_cons_of_neg hx, ← hrest, hp]
termination_by xs.length
decreasing_by exact Nat.lt_succ_of_le (List.length_filter_le _ _)

theorem eraseDups_of_nodup {xs : List String} (h : xs.Nodup) : xs.eraseDups = xs := by
  induction xs with
  | nil => rfl
  | cons x rest ih =>
    obtain ⟨hx, hrest⟩ := List.nodup_cons.1 h
    have hkeep : rest.filter (! · == x) = rest := by
      refine List.filter_eq_self.2 fun y hy => ?_
      have hne : y ≠ x := fun he => hx (he ▸ hy)
      simp [hne]
    rw [List.eraseDups_cons, hkeep, ih hrest]

theorem eraseDups_concat (xs : List String) (x : String) :
    (xs ++ [x]).eraseDups = if x ∈ xs then xs.eraseDups else xs.eraseDups ++ [x] := by
  rw [List.eraseDups_append]
  by_cases h : x ∈ xs
  · simp [List.removeAll, h]
  · simp [List.removeAll, List.eraseDups_cons, h]

/-- Keys in order and values by key tell the entries, when no key stands twice. -/
theorem eq_of_keys_of_lookup {α : Type} {es es' : List (String × α)}
    (hn : (es.map Prod.fst).Nodup) (hk : es.map Prod.fst = es'.map Prod.fst)
    (hv : ∀ key, es.lookup key = es'.lookup key) : es = es' := by
  induction es generalizing es' with
  | nil => exact (List.map_eq_nil_iff.1 hk.symm).symm
  | cons e rest ih =>
    obtain ⟨k, v⟩ := e
    obtain ⟨⟨k', v'⟩, rest', rfl, hkey, hrest⟩ := List.map_eq_cons_iff.1 hk.symm
    obtain rfl : k' = k := hkey
    obtain ⟨hfresh, hn⟩ := List.nodup_cons.1 hn
    obtain rfl : v = v' := by simpa using hv k'
    rw [ih hn hrest.symm fun key => ?_]
    by_cases hkey : key = k'
    · subst hkey
      have hnone (es : List (String × α)) (h : es.map Prod.fst = rest.map Prod.fst) :
          es.lookup key = none := by
        refine List.lookup_eq_none_iff.2 fun p hp => ?_
        have hne : key ≠ p.1 := fun he => hfresh (h ▸ List.mem_map.2 ⟨p, hp, he.symm⟩)
        exact bne_iff_ne.2 hne
      rw [hnone rest rfl, hnone rest' hrest]
    · simpa [lookup_cons_if, hkey] using hv key

theorem Keyed.ofList_concat {α : Type} (es : List (String × α)) (e : String × α) :
    Keyed.ofList (es ++ [e]) = (Keyed.ofList es).insert e.1 e.2 := by
  rw [Keyed.ofList, List.foldl_append]
  rfl

theorem Keyed.keys_ofList {α : Type} (es : List (String × α)) :
    (Keyed.ofList es).keys = (es.map Prod.fst).eraseDups := by
  induction es using List.reverseRecOn with
  | nil => rfl
  | append_singleton es e ih =>
    have hkeys : (Keyed.ofList es).entries.map Prod.fst = (es.map Prod.fst).eraseDups := ih
    rw [Keyed.keys, Keyed.ofList_concat, Keyed.entries_insert, Keyed.map_fst_place, hkeys,
      List.map_append, List.map_singleton, eraseDups_concat]
    simp only [List.mem_eraseDups]

theorem Keyed.get?_ofList {α : Type} (es : List (String × α)) (key : String) :
    (Keyed.ofList es).get? key = es.reverse.lookup key := by
  induction es using List.reverseRecOn with
  | nil => rfl
  | append_singleton es e ih =>
    rw [Keyed.ofList_concat, Keyed.get?_insert, List.reverse_append, List.reverse_singleton,
      List.singleton_append, lookup_cons_if, ih]

theorem Keyed.get?_ofList_of_last {α : Type} {before after : List (String × α)} {key : String}
    {value : α} (h : key ∉ after.map Prod.fst) :
    (Keyed.ofList (before ++ (key, value) :: after)).get? key = some value := by
  have hnone : after.reverse.lookup key = none := by
    refine List.lookup_eq_none_iff.2 fun e he => bne_iff_ne.2 fun hkey => h ?_
    exact List.mem_map.2 ⟨e, List.mem_reverse.1 he, hkey.symm⟩
  rw [Keyed.get?_ofList, List.reverse_append, List.reverse_cons, List.append_assoc,
    List.lookup_append, hnone, Option.none_or, List.singleton_append, List.lookup_cons_self]

theorem Keyed.entries_ofList_eq_iff {α : Type} {es : List (String × α)} :
    (Keyed.ofList es).entries = es ↔ (es.map Prod.fst).Nodup := by
  refine ⟨fun h => h ▸ (Keyed.ofList es).nodup, fun h => ?_⟩
  induction es using List.reverseRecOn with
  | nil => rfl
  | append_singleton es e ih =>
    rw [List.map_append, List.map_singleton] at h
    have hlast : e.1 ∉ es.map Prod.fst :=
      List.disjoint_singleton.1 (List.disjoint_of_nodup_append h)
    rw [Keyed.ofList_concat, Keyed.entries_insert, ih h.of_append_left,
      Keyed.place_of_not_mem _ hlast]

/-- Giving the keys other names that tell them apart keeps their places. -/
theorem Keyed.place_map {α : Type} {f : String → String} {g : α → α} {key : String} {value : α}
    {es : List (String × α)} (hf : ∀ e ∈ es, f e.1 = f key → e.1 = key) :
    place (f key) (g value) (es.map (Prod.map f g)) = (place key value es).map (Prod.map f g) := by
  induction es with
  | nil => rfl
  | cons e rest ih =>
    obtain ⟨k, v⟩ := e
    obtain ⟨he, hrest⟩ := List.forall_mem_cons.1 hf
    rw [List.map_cons, Prod.map_apply, place, place, ih hrest]
    by_cases hk : k = key
    · rw [if_pos hk, if_pos (congrArg f hk), List.map_cons, Prod.map_apply]
    · have hne : f k ≠ f key := fun h => hk (he h)
      rw [if_neg hk, if_neg hne, List.map_cons, Prod.map_apply]

namespace Section

theorem get?_append (s t : Section) (key : String) :
    (s ++ t).get? key = (t.get? key).or (s.get? key) := by
  rw [get?, entries_append, List.reverse_append, List.lookup_append]
  rfl

theorem keys_append (s t : Section) : (s ++ t).keys = s.keys ++ t.keys := by
  rw [keys, entries_append, List.map_append]
  rfl

/-- Under distinct keys the last entry of a key is its only one. -/
theorem get?_of_nodup {s : Section} (h : s.keys.Nodup) (key : String) :
    s.get? key = s.entries.lookup key := by
  refine Option.ext fun value => ?_
  have hrev : (s.entries.reverse.map Prod.fst).Nodup := by
    rw [List.map_reverse]
    exact List.nodup_reverse.2 h
  rw [get?, lookup_eq_some_iff_mem hrev, List.mem_reverse, ← lookup_eq_some_iff_mem h]

theorem keys_fold (s : Section) : s.fold.keys = s.keys.eraseDups :=
  Keyed.keys_ofList s.entries

theorem get?_fold (s : Section) (key : String) : s.fold.get? key = s.get? key := by
  rw [get?_of_nodup s.nodup_keys_fold]
  exact Keyed.get?_ofList s.entries key

/-- Two sections fold alike when their keys first come in alike and their last values agree. -/
theorem fold_eq_fold_iff {s t : Section} :
    s.fold = t.fold ↔ s.keys.eraseDups = t.keys.eraseDups ∧ ∀ key, s.get? key = t.get? key := by
  rw [← keys_fold, ← keys_fold]
  simp only [← get?_fold s, ← get?_fold t]
  constructor
  · intro h
    rw [h]
    exact ⟨rfl, fun _ => rfl⟩
  · rintro ⟨hk, hv⟩
    refine Section.ext (eq_of_keys_of_lookup s.nodup_keys_fold hk fun key => ?_)
    rw [← get?_of_nodup s.nodup_keys_fold, ← get?_of_nodup t.nodup_keys_fold, hv]

@[simp] theorem fold_fold (s : Section) : s.fold.fold = s.fold := by
  refine fold_eq_fold_iff.2 ⟨?_, s.get?_fold⟩
  rw [eraseDups_of_nodup s.nodup_keys_fold, keys_fold]

theorem mem_keys_fold {s : Section} {key : String} : key ∈ s.fold.keys ↔ key ∈ s.keys := by
  rw [keys_fold, List.mem_eraseDups]

theorem mem_of_mem_fold {s : Section} {e : Entry} (h : e ∈ s.fold.entries) : e ∈ s.entries := by
  have hlast : s.get? e.1 = some e.2 := by
    rw [← get?_fold, get?_of_nodup s.nodup_keys_fold]
    exact (lookup_eq_some_iff_mem s.nodup_keys_fold).2 h
  obtain ⟨before, after, hsplit, -⟩ := List.lookup_eq_some_iff.1 hlast
  exact List.mem_reverse.1 (by simp [hsplit])

/-- Folding goes past names that tell the keys apart. -/
theorem entries_fold_map {f : String → String} {g : Value → Value} {es : List Entry}
    (hf : ∀ a ∈ keys ⟨es⟩, ∀ b ∈ keys ⟨es⟩, f a = f b → a = b) :
    (fold ⟨es.map (Prod.map f g)⟩).entries = (fold ⟨es⟩).entries.map (Prod.map f g) := by
  induction es using List.reverseRecOn with
  | nil => rfl
  | append_singleton es e ih =>
    have hkeys {a : String} (ha : a ∈ keys ⟨es⟩) : a ∈ keys ⟨es ++ [e]⟩ := by
      rw [keys, List.map_append]
      exact List.mem_append_left _ ha
    have hlast : e.1 ∈ keys ⟨es ++ [e]⟩ :=
      List.mem_map.2 ⟨e, List.mem_append_right _ List.mem_cons_self, rfl⟩
    have hrest := ih fun a ha b hb => hf a (hkeys ha) b (hkeys hb)
    have hplace : ∀ d ∈ (fold ⟨es⟩).entries, f d.1 = f e.1 → d.1 = e.1 := fun d hd =>
      hf d.1 (hkeys (mem_keys_fold.1 (List.mem_map.2 ⟨d, hd, rfl⟩))) e.1 hlast
    simp only [fold] at hrest hplace ⊢
    rw [List.map_append, List.map_singleton, Keyed.ofList_concat, Keyed.ofList_concat,
      Keyed.entries_insert, Keyed.entries_insert, hrest]
    exact Keyed.place_map hplace

/-- Where the keys of a folded section stay apart under other names, it is the same to fold before
they are given them and after. -/
theorem fold_map_fold {f : String → String} {g : Value → Value} {s : Section}
    (hf : (s.fold.keys.map f).Nodup) :
    fold ⟨s.fold.entries.map (Prod.map f g)⟩ = fold ⟨s.entries.map (Prod.map f g)⟩ := by
  have hinj : ∀ a ∈ s.keys, ∀ b ∈ s.keys, f a = f b → a = b := fun a ha b hb =>
    List.inj_on_of_nodup_map hf (mem_keys_fold.2 ha) (mem_keys_fold.2 hb)
  rw [← fold_fold ⟨s.entries.map _⟩, ← entries_fold_map hinj]

theorem fold_append_congr {s s' t t' : Section} (hs : s.fold = s'.fold) (ht : t.fold = t'.fold) :
    (s ++ t).fold = (s' ++ t').fold := by
  obtain ⟨hsk, hsv⟩ := fold_eq_fold_iff.1 hs
  obtain ⟨htk, htv⟩ := fold_eq_fold_iff.1 ht
  refine fold_eq_fold_iff.2 ⟨?_, fun key => ?_⟩
  · have hmem (key : String) : key ∈ s.keys ↔ key ∈ s'.keys := by
      rw [← List.mem_eraseDups, hsk, List.mem_eraseDups]
    have hfresh : (s.keys.elem ·) = (s'.keys.elem ·) := by
      funext key
      rw [Bool.eq_iff_iff, List.elem_iff, List.elem_iff, hmem]
    rw [keys_append, keys_append, List.eraseDups_append, List.eraseDups_append, List.removeAll,
      List.removeAll, eraseDups_filter, eraseDups_filter, hsk, htk]
    simp only [List.elem_eq_contains, funext_iff] at hfresh
    simp only [List.elem_eq_contains, hfresh]
  · rw [get?_append, get?_append, hsv, htv]

theorem fold_flatten_congr {parts parts' : List (List Entry)}
    (h : List.Forall₂ (fun p q => fold ⟨p⟩ = fold ⟨q⟩) parts parts') :
    fold ⟨parts.flatten⟩ = fold ⟨parts'.flatten⟩ := by
  induction h with
  | nil => rfl
  | cons hp _ ih => exact fold_append_congr hp ih

end Section

end SectionCompiler
