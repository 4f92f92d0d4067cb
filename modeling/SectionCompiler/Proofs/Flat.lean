import SectionCompiler.Proofs.Folding
import SectionCompiler.Proofs.Session

/-! The flat expansion of a section. Every directive gives way to the entries that it stands for,
however deep they come from, and nothing is folded on the way. Resolution folds at every reference
and inside every template, and comes to one fold of the flat expansion all the same. -/

namespace SectionCompiler

namespace Flat

open Resolution (Chain assemble)
open Direct Inheritance

/-- The entries that one entry stands for, when `refer` gives those of a reference. -/
def expandEntry (refer : String → Direct Section) (templates : Option TemplateStore) (e : Entry) :
    Direct (List Entry) :=
  match Directive.ofKey? e.1, templates with
  | none, _ => return [e]
  | some .inherit, _ => return (← e.2.strings.mapM refer).flatMap Section.entries
  | some (.template _), none => return [e]
  | some (.template name), some templates =>
    match templates.find? name e.2 with
    | some t => return t.entriesFor e.2.arguments
    | none => throw (.unknownTemplate name)

/-- Puts the entries in the place of the directives and folds nothing. -/
def joining (templates : Option TemplateStore) : Assembly := fun refer content => do
  let parts ← content.entries.mapM (expandEntry refer templates)
  return ⟨parts.flatten⟩

def expand (s : Sources) (caller : Option String) (content : Section) : Direct Section :=
  joining s.templates (followRaw s.library (joining s.templates) caller []) content

theorem exists_forall₂_forall₂ {α β γ : Type} {R : α → β → Prop} {S : α → γ → Prop}
    {T : β → γ → Prop} {xs : List α} {ys : List β} (h : List.Forall₂ R xs ys)
    (hs : ∀ x ∈ xs, ∀ y, R x y → ∃ z, S x z ∧ T y z) :
    ∃ zs, List.Forall₂ S xs zs ∧ List.Forall₂ T ys zs := by
  induction h with
  | nil => exact ⟨[], .nil, .nil⟩
  | cons hr _ ih =>
    obtain ⟨hx, hrest⟩ := List.forall_mem_cons.1 hs
    obtain ⟨z, hz, ht⟩ := hx _ hr
    obtain ⟨zs, hzs, hts⟩ := ih hrest
    exact ⟨z :: zs, .cons hz hzs, .cons ht hts⟩

section

variable {refer refer' : String → Direct Section} {templates : Option TemplateStore}
  {cap cap' : Option Nat}

theorem exists_expandEntry_of_expands {e : Entry} {part : List Entry}
    (hrefer : Directive.ofKey? e.1 = some .inherit → ∀ raw ∈ e.2.strings, ∀ c,
      (refer raw).run cap = .ok c → ∃ flat, (refer' raw).run cap' = .ok flat ∧ c = flat.fold)
    (h : Expands (fun raw c => (refer raw).run cap = .ok c) templates e part) :
    ∃ flat, (expandEntry refer' templates e).run cap' = .ok flat ∧
      Section.fold ⟨part⟩ = Section.fold ⟨flat⟩ := by
  unfold Expands at h
  unfold expandEntry
  cases hd : Directive.ofKey? e.1 with
  | none =>
    rw [hd] at h
    exact ⟨[e], rfl, congrArg (fun es => Section.fold ⟨es⟩) h⟩
  | some d =>
    rw [hd] at h
    cases d with
    | inherit =>
      obtain ⟨contents, hcontents, rfl⟩ := h
      obtain ⟨flats, hflats, hfold⟩ := exists_forall₂_forall₂ hcontents (hrefer hd)
      refine ⟨flats.flatMap Section.entries, ?_, ?_⟩
      · exact run_bind_eq_ok.2 ⟨flats, run_mapM_eq_ok.2 hflats, rfl⟩
      · rw [List.flatMap_def, List.flatMap_def]
        refine Section.fold_flatten_congr ?_
        rw [List.forall₂_map_left_iff, List.forall₂_map_right_iff]
        exact hfold.imp fun c flat hc => by rw [hc]; exact flat.fold_fold
    | template name =>
      cases templates with
      | none => exact ⟨[e], rfl, congrArg (fun es => Section.fold ⟨es⟩) h⟩
      | some store =>
        obtain ⟨content, hc, rfl⟩ := h
        obtain ⟨t, ht, rfl⟩ := Option.map_eq_some_iff.1 hc
        refine ⟨t.entriesFor e.2.arguments, by simp only [ht]; rfl, ?_⟩
        exact Section.fold_fold _

/-- When references come to the fold of their flat expansions, so does what is put together. -/
theorem exists_joining_of_assemble {content v : Section}
    (hrefer : ∀ raw ∈ content.references, ∀ c, (refer raw).run cap = .ok c →
      ∃ flat, (refer' raw).run cap' = .ok flat ∧ c = flat.fold)
    (h : (assemble refer templates content).run cap = .ok v) :
    ∃ flat, (joining templates refer' content).run cap' = .ok flat ∧ v = flat.fold := by
  obtain ⟨parts, hparts, rfl⟩ := run_assemble_eq_ok.1 h
  obtain ⟨flats, hflats, hfold⟩ := exists_forall₂_forall₂ hparts fun e he _ hpart =>
    exists_expandEntry_of_expands (fun hd raw hr =>
      hrefer raw (Section.mem_references_iff.2 ⟨e, he, hd, hr⟩)) hpart
  refine ⟨⟨flats.flatten⟩, ?_, Section.fold_flatten_congr hfold⟩
  exact run_bind_eq_ok.2 ⟨flats, run_mapM_eq_ok.2 hflats, rfl⟩

end

variable {l : Library} {templates : Option TemplateStore}

theorem exists_followRaw_of_followRaw {caller : Option String} {chain : Chain} {raw : String}
    {v : Section} (hfollow : ∀ t w, follow l (folding templates) chain t none = .ok w →
      ∃ flat, follow l (joining templates) chain t none = .ok flat ∧ w = flat.fold)
    (h : followRaw l (folding templates) caller chain raw none = .ok v) :
    ∃ flat, followRaw l (joining templates) caller chain raw none = .ok flat ∧ v = flat.fold := by
  obtain ⟨t, ht, hv⟩ := followRaw_eq_ok_iff.1 h
  obtain ⟨flat, hflat, hfold⟩ := hfollow t v hv
  exact ⟨flat, followRaw_eq_ok_iff.2 ⟨t, ht, hflat⟩, hfold⟩

/-- A reference comes to the fold of its flat expansion. -/
theorem exists_follow_of_follow {chain : Chain} {r : Reference} {v : Section}
    (h : follow l (folding templates) chain r none = .ok v) :
    ∃ flat, follow l (joining templates) chain r none = .ok flat ∧ v = flat.fold := by
  induction chain using chain_induction l generalizing r v with
  | step chain ih =>
    obtain ⟨hfresh, -, content, hcontent, hput⟩ := follow_eq_ok_iff.1 h
    have hr := mem_places_iff.2 ⟨content, hcontent⟩
    have hrefer : ∀ raw ∈ content.references, ∀ c,
        followRaw l (folding templates) (some r.document) (chain.extend r.key) raw none = .ok c →
        ∃ flat, followRaw l (joining templates) (some r.document) (chain.extend r.key) raw none =
          .ok flat ∧ c = flat.fold :=
      fun raw _ c => exists_followRaw_of_followRaw fun t w => ih r hr hfresh
    obtain ⟨flat, hflat, hfold⟩ := exists_joining_of_assemble hrefer hput
    exact ⟨flat, follow_eq_ok_iff.2 ⟨hfresh, rfl, content, hcontent, hflat⟩, hfold⟩

end Flat

open Direct

/-- What a section resolves to is one fold of its flat expansion: every key stands where it first
comes in there, and has the value that it has there last. -/
theorem Resolution.resolve_eq_fold_expand (s : Sources) (caller : Option String)
    (hcaller : Reference.PlainCaller caller) (content r : Section)
    (h : (Resolution.resolve s caller [] content ∅).1 = .ok r) :
    ∃ flat, (Flat.expand s caller content).run none = .ok flat ∧ r = flat.fold ∧
      r.keys = flat.keys.eraseDups ∧ ∀ key, r.get? key = flat.get? key := by
  obtain ⟨-, hhigh, -⟩ := between_resolve content hcaller ∅ (faithful_empty s)
  obtain ⟨flat, hflat, rfl⟩ := Flat.exists_joining_of_assemble (fun raw _ c =>
    Flat.exists_followRaw_of_followRaw fun _ _ => Flat.exists_follow_of_follow) (hhigh.eq_ok h)
  exact ⟨flat, hflat, rfl, flat.keys_fold, flat.get?_fold⟩

theorem Resolution.resolve_eq_fold_expand_garage :
    let s : Sources := ⟨Session.garage, none, 2⟩
    let scout : Section := ⟨[("@Inherits", .list ["tank:Tank", "base:Unit"]),
      ("Speed", .scalar "9")]⟩
    let r : Section := ⟨[("Armor", .scalar "10"), ("Speed", .scalar "9")]⟩
    Reference.PlainCaller (some "tank") ∧
      (Resolution.resolve s (some "tank") [] scout ∅).1 = .ok r ∧
      ∃ flat, (Flat.expand s (some "tank") scout).run none = .ok flat ∧ r = flat.fold ∧
        r.keys = flat.keys.eraseDups ∧ ∀ key, r.get? key = flat.get? key := by
  have hcaller : Reference.PlainCaller (some "tank") :=
    Inheritance.plainCaller_some (by decide)
  have hr : (Resolution.resolve ⟨Session.garage, none, 2⟩ (some "tank") []
      ⟨[("@Inherits", .list ["tank:Tank", "base:Unit"]), ("Speed", .scalar "9")]⟩ ∅).1 =
      .ok ⟨[("Armor", .scalar "10"), ("Speed", .scalar "9")]⟩ := by decide +kernel
  exact ⟨hcaller, hr, Resolution.resolve_eq_fold_expand _ _ hcaller _ _ hr⟩

/-- The flat expansion keeps what was inherited twice. -/
example :
    (Flat.expand ⟨Session.garage, none, 2⟩ (some "tank")
      ⟨[("@Inherits", .scalar "tank:Tank"), ("Speed", .scalar "9")]⟩).run none =
      .ok ⟨[("Armor", .scalar "10"), ("Speed", .scalar "5"), ("Armor", .scalar "10"),
        ("Speed", .scalar "5"), ("Armor", .scalar "50"), ("Speed", .scalar "9")]⟩ := by
  decide +kernel

end SectionCompiler
