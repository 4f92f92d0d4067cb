import SectionCompiler.Proofs.Text
import SectionCompiler.Reference

/-! The key under which the content of a reference is remembered. A document name without a colon
is a plain name. References to plainly named documents are told apart by their keys, and reading a
reference in a plainly named document gives such a reference again. -/

namespace SectionCompiler

/-- A document name without a colon. -/
def IsPlain (name : String) : Prop := ':' ∉ name.toList

instance (name : String) : Decidable (IsPlain name) := inferInstanceAs (Decidable (_ ∉ _))

namespace Name

theorem mem_follow {rooted : Bool} {way : List (List Char)} {segment s : List Char}
    (h : s ∈ follow rooted way segment) : s ∈ way ∨ s = segment := by
  unfold follow at h
  grind

theorem mem_foldl_follow {rooted : Bool} {segments way : List (List Char)} {s : List Char}
    (h : s ∈ segments.foldl (follow rooted) way) : s ∈ way ∨ s ∈ segments := by
  induction segments generalizing way with
  | nil => exact Or.inl h
  | cons segment rest ih =>
    rcases ih h with hw | hr
    · rcases mem_follow hw with hw | rfl
      · exact Or.inl hw
      · exact Or.inr List.mem_cons_self
    · exact Or.inr (List.mem_cons_of_mem _ hr)

theorem mem_intercalate {c : Char} {mark : List Char} {segments : List (List Char)}
    (h : c ∈ mark.intercalate segments) : c ∈ mark ∨ ∃ s ∈ segments, c ∈ s := by
  induction segments with
  | nil => simp at h
  | cons s rest ih =>
    cases rest with
    | nil => exact Or.inr ⟨s, List.mem_cons_self, by simpa using h⟩
    | cons t rest =>
      rw [List.intercalate_cons_cons, List.append_assoc, List.mem_append, List.mem_append] at h
      rcases h with h | h | h
      · exact Or.inr ⟨s, List.mem_cons_self, h⟩
      · exact Or.inl h
      · exact (ih h).imp_right fun ⟨u, hu, hc⟩ => ⟨u, List.mem_cons_of_mem _ hu, hc⟩

theorem mem_intercalate_of_mem {c : Char} (mark : List Char) {s : List Char}
    {segments : List (List Char)} (hs : s ∈ segments) (hc : c ∈ s) :
    c ∈ mark.intercalate segments := by
  induction segments with
  | nil => exact absurd hs List.not_mem_nil
  | cons t rest ih =>
    cases rest with
    | nil => rwa [List.intercalate_singleton, ← List.mem_singleton.1 hs]
    | cons u rest =>
      rw [List.intercalate_cons_cons, List.append_assoc, List.mem_append, List.mem_append]
      rcases List.mem_cons.1 hs with rfl | hr
      · exact Or.inl hc
      · exact Or.inr (Or.inr (ih hr))

theorem mem_normalizeChars {c : Char} {cs : List Char} (h : c ∈ normalizeChars cs) :
    c = '/' ∨ c = '.' ∨ c ∈ cs.map slashed := by
  have joined (hj : c ∈ ['/'].intercalate (segments (cs.map slashed))) :
      c = '/' ∨ c = '.' ∨ c ∈ cs.map slashed := by
    rcases mem_intercalate hj with hm | ⟨s, hs, hc⟩
    · exact Or.inl (List.mem_singleton.1 hm)
    · rcases mem_foldl_follow (List.mem_reverse.1 hs) with hw | hs
      · exact absurd hw List.not_mem_nil
      · have hi := mem_intercalate_of_mem ['/'] hs hc
        rw [List.intercalate_splitOn] at hi
        exact Or.inr (Or.inr hi)
  simp only [normalizeChars] at h
  split at h
  · exact (List.mem_cons.1 h).elim Or.inl joined
  · split at h
    · exact Or.inr (Or.inl (List.mem_singleton.1 h))
    · exact joined h

theorem isPlain_normalize {name : String} (h : IsPlain name) : IsPlain (normalize name) := by
  intro hc
  rw [normalize, String.toList_ofList] at hc
  rcases mem_normalizeChars hc with hc | hc | hc
  · exact absurd hc (by decide)
  · exact absurd hc (by decide)
  · obtain ⟨d, hd, he⟩ := List.mem_map.1 hc
    unfold slashed at he
    split at he
    · exact absurd he (by decide)
    · exact h (he ▸ hd)

end Name

namespace Reference

/-- The caller of a reference, when there is one, is plainly named. -/
def PlainCaller (caller : Option String) : Prop := ∀ name ∈ caller, IsPlain name

theorem isPlain_of_parts? {raw document name : String} (h : parts? raw = some (document, name)) :
    IsPlain document := by
  unfold parts? at h
  split at h
  · next before after hcut =>
    split at h
    · exact absurd h (by simp)
    · obtain ⟨rfl, -⟩ := Prod.mk.inj (Option.some.inj h)
      intro hc
      rw [String.toList_ofList] at hc
      exact (Text.cutAt_eq_some hcut).1 (Text.mem_of_mem_trim hc)
  · exact absurd h (by simp)

theorem isPlain_of_parse {raw : String} {caller : Option String} {r : Reference}
    (hc : PlainCaller caller) (h : parse raw caller = .ok r) : IsPlain r.document := by
  unfold parse at h
  split at h
  · exact absurd h (by simp)
  · next document name hparts =>
    split at h
    · split at h
      · next c => exact Except.ok.inj h ▸ hc c rfl
      · exact absurd h (by simp)
    · exact Except.ok.inj h ▸ Name.isPlain_normalize (isPlain_of_parts? hparts)

theorem eq_of_key_eq {r t : Reference} (hr : IsPlain r.document) (ht : IsPlain t.document)
    (h : r.key = t.key) : r = t := by
  have hkey (u : Reference) (hu : IsPlain u.document) :
      Text.cutAt ':' u.key.toList = some (u.document.toList, u.heading.toList) := by
    rw [key, String.toList_append, String.toList_append, List.append_assoc]
    exact Text.cutAt_append _ hu
  have hcut := hkey r hr
  rw [h, hkey t ht] at hcut
  obtain ⟨hd, hh⟩ := Prod.mk.inj (Option.some.inj hcut)
  cases r
  cases t
  rw [mk.injEq]
  exact ⟨(String.toList_inj.1 hd).symm, (String.toList_inj.1 hh).symm⟩

end Reference

end SectionCompiler
