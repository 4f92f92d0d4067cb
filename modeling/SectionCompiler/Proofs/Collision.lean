import SectionCompiler.Proofs.Reference
import SectionCompiler.Resolution

/-! Two references under one key. A key joins the two names by a colon, and a heading may hold
colons of its own, so the key of one reference is that of another when the second document's name
goes on where the first ends. Reading gives a document name with a colon only where `this` stands
for such a document; between documents without a colon no two references share a key. -/

namespace SectionCompiler.Reference

/-- The name of the second document goes on after the first with a colon and the front of the
first heading, and the second heading is what is left of it. -/
def Continues (r t : Reference) : Prop :=
  ∃ middle, t.document = r.document ++ ":" ++ middle ∧ r.heading = middle ++ ":" ++ t.heading

/-- Two texts with a colon between their parts are cut at one place, or one of them is cut in
the second part of the other. -/
theorem append_colon_eq_iff {d h d' h' : List Char} :
    d ++ ':' :: h = d' ++ ':' :: h' ↔ (d = d' ∧ h = h') ∨
      (∃ middle, d' = d ++ ':' :: middle ∧ h = middle ++ ':' :: h') ∨
      ∃ middle, d = d' ++ ':' :: middle ∧ h' = middle ++ ':' :: h := by
  constructor
  · intro heq
    rcases List.append_eq_append_iff.1 heq with ⟨front, hd, hh⟩ | ⟨front, hd, hh⟩
    · rcases List.cons_eq_append_iff.1 hh with ⟨rfl, hrest⟩ | ⟨middle, rfl, hrest⟩
      · obtain ⟨-, rfl⟩ := List.cons.inj hrest
        exact Or.inl ⟨by rw [hd, List.append_nil], rfl⟩
      · exact Or.inr (Or.inl ⟨middle, hd, hrest⟩)
    · rcases List.cons_eq_append_iff.1 hh with ⟨rfl, hrest⟩ | ⟨middle, rfl, hrest⟩
      · obtain ⟨-, rfl⟩ := List.cons.inj hrest
        exact Or.inl ⟨by rw [hd, List.append_nil], rfl⟩
      · exact Or.inr (Or.inr ⟨middle, hd, hrest⟩)
  · rintro (⟨rfl, rfl⟩ | ⟨middle, rfl, rfl⟩ | ⟨middle, rfl, rfl⟩)
    · rfl
    · simp
    · simp

theorem toList_key (r : Reference) : r.key.toList = r.document.toList ++ ':' :: r.heading.toList := by
  rw [key, String.toList_append, String.toList_append, List.append_assoc]
  rfl

theorem continues_iff {r t : Reference} :
    r.Continues t ↔ ∃ middle, t.document.toList = r.document.toList ++ ':' :: middle ∧
      r.heading.toList = middle ++ ':' :: t.heading.toList := by
  constructor
  · rintro ⟨middle, hd, hh⟩
    exact ⟨middle.toList, by simp [hd], by simp [hh]⟩
  · rintro ⟨middle, hd, hh⟩
    refine ⟨String.ofList middle, String.toList_inj.1 ?_, String.toList_inj.1 ?_⟩
    · simp [hd]
    · simp [hh]

/-- A key is shared by one reference alone, or by two of which one continues the other. -/
theorem key_eq_iff {r t : Reference} :
    r.key = t.key ↔ r = t ∨ r.Continues t ∨ t.Continues r := by
  rw [continues_iff, continues_iff, ← String.toList_inj, toList_key, toList_key,
    append_colon_eq_iff]
  refine or_congr ?_ Iff.rfl
  rw [String.toList_inj, String.toList_inj]
  cases r
  cases t
  rw [mk.injEq]

/-- A document whose name holds a colon is the one in which the reference stands. -/
theorem caller_eq_of_not_isPlain {raw : String} {caller : Option String} {r : Reference}
    (h : parse raw caller = .ok r) (hr : ¬ IsPlain r.document) : caller = some r.document := by
  unfold parse at h
  split at h
  · exact absurd h (by simp)
  · next document name hparts =>
    split at h
    · split at h
      · next c => rw [← Except.ok.inj h]
      · exact absurd h (by simp)
    · rw [← Except.ok.inj h] at hr
      exact absurd (Name.isPlain_normalize (isPlain_of_parts? hparts)) hr

theorem not_isPlain_of_continues {r t : Reference} (h : r.Continues t) : ¬ IsPlain t.document := by
  obtain ⟨middle, hd, -⟩ := continues_iff.1 h
  exact fun ht => ht (by simp [hd])

/-- Two references that can be read share a key exactly when they are one reference, or when one
of them is to `this` document, whose name continues the other document's name. Where no
reference stands in a document with a colon in its name, a key is that of one section. -/
theorem key_eq_iff_of_parse {raw raw' : String} {caller caller' : Option String}
    {r r' : Reference} (h : parse raw caller = .ok r) (h' : parse raw' caller' = .ok r') :
    (r.key = r'.key ↔ r = r' ∨ (caller' = some r'.document ∧ r.Continues r') ∨
      (caller = some r.document ∧ r'.Continues r)) ∧
    (PlainCaller caller → PlainCaller caller' → r.key = r'.key →
      r.document = r'.document ∧ r.heading = r'.heading) := by
  constructor
  · have hcaller : r'.Continues r → caller = some r.document := fun hc =>
      caller_eq_of_not_isPlain h (not_isPlain_of_continues hc)
    have hcaller' : r.Continues r' → caller' = some r'.document := fun hc =>
      caller_eq_of_not_isPlain h' (not_isPlain_of_continues hc)
    rw [key_eq_iff, and_iff_right_of_imp hcaller, and_iff_right_of_imp hcaller']
  · intro hc hc' hkey
    obtain rfl := eq_of_key_eq (isPlain_of_parse hc h) (isPlain_of_parse hc' h') hkey
    exact ⟨rfl, rfl⟩

/-- A gate in the section `north:Gate` of the document `yard`, and another in the section `Gate`
of the document `yard:north`. -/
def yard : Library :=
  Catalog.ofList [
    ("yard", Keyed.ofList [("north:Gate", ⟨[("Width", .scalar "3")]⟩)]),
    ("yard:north", Keyed.ofList [("Gate", ⟨[("Width", .scalar "8")]⟩)])]

theorem key_eq_iff_of_parse_yard :
    let r : Reference := ⟨"yard", "north:Gate"⟩
    let r' : Reference := ⟨"yard:north", "Gate"⟩
    (parse " yard : north:Gate" none = .ok r ∧ parse "this:Gate" (some "yard:north") = .ok r' ∧
      (r.key = r'.key ↔ r = r' ∨ (some "yard:north" = some r'.document ∧ r.Continues r') ∨
        (none = some r.document ∧ r'.Continues r))) ∧
    (parse "./yard:north:Gate" none = .ok r ∧ parse "this:north:Gate" (some "yard") = .ok r ∧
      PlainCaller none ∧ PlainCaller (some "yard") ∧
      r.document = r.document ∧ r.heading = r.heading) := by
  have h : parse " yard : north:Gate" none = .ok ⟨"yard", "north:Gate"⟩ := by decide +kernel
  have h' : parse "this:Gate" (some "yard:north") = .ok ⟨"yard:north", "Gate"⟩ := by decide +kernel
  have hdot : parse "./yard:north:Gate" none = .ok ⟨"yard", "north:Gate"⟩ := by decide +kernel
  have hthis : parse "this:north:Gate" (some "yard") = .ok ⟨"yard", "north:Gate"⟩ := by
    decide +kernel
  have hnone : PlainCaller none := fun _ hc => absurd hc (Option.not_mem_none _)
  have hyard : PlainCaller (some "yard") := fun _ hc => Option.some.inj hc ▸ by decide
  exact ⟨⟨h, h', (key_eq_iff_of_parse h h').1⟩,
    hdot, hthis, hnone, hyard, (key_eq_iff_of_parse hdot hthis).2 hnone hyard rfl⟩

/-- Two sections share a key, and so the content of the first is taken for that of the second. -/
theorem key_shared_by_two_sections :
    let s : Sources := ⟨yard, none, Resolution.defaultDepth⟩
    let r : Reference := ⟨"yard", "north:Gate"⟩
    let r' : Reference := ⟨"yard:north", "Gate"⟩
    Name.normalize "yard:north" = "yard:north" ∧
      parse "yard:north:Gate" none = .ok r ∧ parse "this:Gate" (some "yard:north") = .ok r' ∧
      r.key = r'.key ∧ ¬ (r.document = r'.document ∧ r.heading = r'.heading) ∧
      (Resolution.refer s (some "yard:north") [] "this:Gate" ∅).1 =
        .ok ⟨[("Width", .scalar "8")]⟩ ∧
      (Resolution.refer s (some "yard:north") [] "this:Gate"
        (Resolution.refer s none [] "yard:north:Gate" ∅).2).1 = .ok ⟨[("Width", .scalar "3")]⟩ := by
  exact ⟨by decide +kernel, by decide +kernel, by decide +kernel, by decide, by decide,
    by decide +kernel, by decide +kernel⟩

end SectionCompiler.Reference
