import SectionCompiler.Proofs.Answers
import SectionCompiler.Proofs.Session

/-! Which documents compile. A place is broken when inheritance leads from it to a section with a
defect of its own or onto a cycle. Resolution without memory succeeds exactly at the places that
are not broken, and under a cap above the number of places so does every compilation. -/

namespace SectionCompiler

open Resolution (Chain Fault Below Memory Faithful assemble)
open Relation

namespace Inheritance

open Direct

/-- A section that stands in the document `caller` has a defect of its own: a text that is no
reference, a reference to no section, or the name of a template that is not known. -/
def Defective (s : Sources) (caller : Option String) (content : Section) : Prop :=
  (∃ raw ∈ content.references, (∃ fault, Reference.parse raw caller = .error fault) ∨
    ∃ t, Reference.parse raw caller = .ok t ∧ target? s.library t = none) ∨
  ∃ store ∈ s.templates, ∃ e ∈ content.entries, ∃ name,
    Directive.ofKey? e.1 = some (.template name) ∧ store.find? name e.2 = none

def LocalDefect (s : Sources) (r : Reference) : Prop :=
  ∃ content, target? s.library r = some content ∧ Defective s (some r.document) content

/-- Inheritance leads from a place to a defect or onto a cycle. -/
def Broken (s : Sources) (r : Reference) : Prop :=
  ∃ t, ReflTransGen (Inherits s.library) r t ∧
    (LocalDefect s t ∨ TransGen (Inherits s.library) t t)

def Unsound (s : Sources) (name : String) : Prop :=
  ∃ document, s.library.get? name = some document ∧
    ∃ heading ∈ document.keys, Broken s ⟨name, heading⟩

variable {s : Sources} {r t : Reference}

theorem broken_of_reaches (h : ReflTransGen (Inherits s.library) r t) (ht : Broken s t) :
    Broken s r := by
  obtain ⟨u, hu, hb⟩ := ht
  exact ⟨u, h.trans hu, hb⟩

/-- A place is broken by a defect of its own or by a place that it inherits from. -/
theorem broken_iff :
    Broken s r ↔ LocalDefect s r ∨ ∃ t, Inherits s.library r t ∧ Broken s t := by
  constructor
  · rintro ⟨u, hu, hb⟩
    rcases ReflTransGen.cases_head hu with rfl | ⟨t, hs, ht⟩
    · rcases hb with hb | hb
      · exact Or.inl hb
      · -- a cycle through the place goes through one that it inherits from
        obtain ⟨t, hs, ht⟩ := TransGen.head'_iff.1 hb
        exact Or.inr ⟨t, hs, r, ht, Or.inr hb⟩
    · exact Or.inr ⟨t, hs, u, ht, hb⟩
  · rintro (h | ⟨t, hs, ht⟩)
    · exact ⟨r, .refl, Or.inl h⟩
    · exact broken_of_reaches (.single hs) ht

theorem not_defective_iff {caller : Option String} {content : Section} :
    ¬ Defective s caller content ↔
      (∀ raw ∈ content.references, ∃ t, Reference.parse raw caller = .ok t ∧
        ∃ c, target? s.library t = some c) ∧ TemplatesFound s.templates content := by
  unfold Defective TemplatesFound
  push Not
  refine and_congr (forall₂_congr fun raw _ => ?_) (by simp)
  cases Reference.parse raw caller with
  | error fault => simp
  | ok t => simp [Option.ne_none_iff_exists']

/-- The section of a place that is not broken has no defect, and the places that it inherits from
are not broken either. -/
theorem sound_of_not_broken {content : Section} (hc : target? s.library r = some content)
    (hb : ¬ Broken s r) :
    ¬ Defective s (some r.document) content ∧ ∀ t, Names (some r.document) content t →
      ¬ Broken s t ∧ ∃ c, target? s.library t = some c := by
  have hdefect : ¬ Defective s (some r.document) content := fun hd =>
    hb (broken_iff.2 (Or.inl ⟨content, hc, hd⟩))
  refine ⟨hdefect, fun t hn => ⟨fun ht => ?_, ?_⟩⟩
  · exact hb (broken_iff.2 (Or.inr ⟨t, ⟨content, hc, hn⟩, ht⟩))
  · obtain ⟨raw, hm, hp⟩ := hn
    obtain ⟨t', hp', htarget⟩ := (not_defective_iff.1 hdefect).1 raw hm
    exact Except.ok.inj (hp'.symm.trans hp) ▸ htarget

end Inheritance

namespace Direct

open Inheritance

variable {s : Sources}

/-- A section is put together exactly when it has no defect and each reference that it names is
followed. -/
theorem exists_resolve_iff {caller : Option String} {chain : Chain} {content : Section} :
    (∃ v, (resolve s caller chain content).run none = .ok v) ↔
      ¬ Defective s caller content ∧ ∀ t, Names caller content t →
        ∃ v, follow s.library (folding s.templates) chain t none = .ok v := by
  have hraw (raw : String) : (∃ c, (refer s caller chain raw).run none = .ok c) ↔
      ∃ t, Reference.parse raw caller = .ok t ∧
        ∃ c, follow s.library (folding s.templates) chain t none = .ok c := by
    simp only [refer, ReaderT.run, followRaw_eq_ok_iff]
    grind
  rw [resolve, folding, exists_run_assemble_iff, not_defective_iff]
  simp only [hraw]
  constructor
  · rintro ⟨hr, ht⟩
    refine ⟨⟨fun raw hm => ?_, ht⟩, fun t hn => ?_⟩
    · obtain ⟨t, hp, v, hv⟩ := hr raw hm
      obtain ⟨-, -, c, hc, -⟩ := follow_eq_ok_iff.1 hv
      exact ⟨t, hp, c, hc⟩
    · obtain ⟨raw, hm, hp⟩ := hn
      obtain ⟨t', hp', hv⟩ := hr raw hm
      exact Except.ok.inj (hp'.symm.trans hp) ▸ hv
  · rintro ⟨⟨hr, ht⟩, hf⟩
    refine ⟨fun raw hm => ?_, ht⟩
    obtain ⟨t, hp, -⟩ := hr raw hm
    exact ⟨t, hp, hf t ⟨raw, hm, hp⟩⟩

theorem exists_follow_iff {chain : Chain} {r : Reference} :
    (∃ v, follow s.library (folding s.templates) chain r none = .ok v) ↔
      r.key ∉ chain ∧ ∃ content, target? s.library r = some content ∧
        ∃ v, (resolve s (some r.document) (chain.extend r.key) content).run none = .ok v := by
  simp only [follow_eq_ok_iff]
  constructor
  · rintro ⟨v, hf, -, c, hc, hv⟩
    exact ⟨hf, c, hc, v, hv⟩
  · rintro ⟨hf, c, hc, v, hv⟩
    exact ⟨v, hf, rfl, c, hc, hv⟩

theorem not_broken_of_follow {chain : Chain} {r : Reference} {v : Section}
    (h : follow s.library (folding s.templates) chain r none = .ok v) : ¬ Broken s r := by
  rintro ⟨t, hreach, hb⟩
  obtain ⟨chain', w, hw⟩ := exists_follow_of_reaches h hreach
  rcases hb with ⟨content, hc, hd⟩ | hcycle
  · obtain ⟨-, content', hc', hv⟩ := exists_follow_iff.1 ⟨w, hw⟩
    obtain rfl := Option.some.inj (hc.symm.trans hc')
    exact (exists_resolve_iff.1 hv).1 hd
  · exact not_cyclic_of_follow hw hcycle

/-- A place that is not broken is followed under every chain that it does not lead back to. -/
theorem exists_follow_of_not_broken {chain : Chain} {r : Reference} {content : Section}
    (hr : IsPlain r.document) (hc : target? s.library r = some content) (hb : ¬ Broken s r)
    (havoid : ∀ t, ReflTransGen (Inherits s.library) r t → t.key ∉ chain) :
    ∃ v, follow s.library (folding s.templates) chain r none = .ok v := by
  induction chain using chain_induction s.library generalizing r content with
  | step chain ih =>
    obtain ⟨hdefect, hnames⟩ := sound_of_not_broken hc hb
    refine exists_follow_iff.2 ⟨havoid r .refl, content, hc, exists_resolve_iff.2
      ⟨hdefect, fun t hn => ?_⟩⟩
    have hs : Inherits s.library r t := ⟨content, hc, hn⟩
    obtain ⟨ht, c, hct⟩ := hnames t hn
    refine ih r (mem_places_iff.2 ⟨content, hc⟩) (havoid r .refl) (isPlain_of_inherits hr hs) hct
      ht fun u hu hmem => ?_
    rcases List.mem_append.1 hmem with hmem | hmem
    · exact havoid u (.head hs hu) hmem
    · -- the key is that of the place itself, which would lie on a cycle
      have hur := Reference.eq_of_key_eq (isPlain_of_reaches (isPlain_of_inherits hr hs) hu) hr
        (List.mem_singleton.1 hmem)
      exact hb ⟨r, .refl, Or.inr (TransGen.head' hs (hur ▸ hu))⟩

/-- Without memory the section of a place is put together exactly when the place is not broken. -/
theorem exists_resolve_place_iff {r : Reference} {content : Section} (hr : IsPlain r.document)
    (hc : target? s.library r = some content) :
    (∃ v, (resolve s (some r.document) [] content).run none = .ok v) ↔ ¬ Broken s r := by
  constructor
  · intro h hb
    obtain ⟨hdefect, hnames⟩ := exists_resolve_iff.1 h
    rcases broken_iff.1 hb with ⟨content', hc', hd⟩ | ⟨t, ⟨content', hc', hn⟩, ht⟩
    · exact hdefect (Option.some.inj (hc'.symm.trans hc) ▸ hd)
    · obtain ⟨v, hv⟩ := hnames t (Option.some.inj (hc'.symm.trans hc) ▸ hn)
      exact not_broken_of_follow hv ht
  · intro hb
    obtain ⟨hdefect, hnames⟩ := sound_of_not_broken hc hb
    refine exists_resolve_iff.2 ⟨hdefect, fun t hn => ?_⟩
    obtain ⟨ht, c, hct⟩ := hnames t hn
    exact exists_follow_of_not_broken (isPlain_of_names (plainCaller_some hr) hn) hct ht
      fun _ _ => List.not_mem_nil

/-- Under a cap that the chain cannot reach, following is the same as without a cap. -/
theorem follow_eq_uncapped {limit : Nat} {chain : Chain} {r : Reference}
    (h : chain.length + (unvisited s.library chain).length < limit) :
    follow s.library (folding s.templates) chain r (some limit) =
      follow s.library (folding s.templates) chain r none := by
  induction chain using chain_induction s.library generalizing r with
  | step chain ih =>
    rw [follow_apply, follow_apply]
    split
    · rfl
    · next hfresh =>
      rw [Option.filter_some, if_neg (by simp; omega)]
      cases hs : seek s.library r with
      | error fault => rfl
      | ok content =>
        have hplace := mem_places_iff.2 ⟨content, seek_eq_ok_iff.1 hs⟩
        have hlt := length_unvisited_extend_lt hplace hfresh
        have hext : (chain.extend r.key).length = chain.length + 1 := by simp [Chain.extend]
        refine Below.eq_of_none_weak ((weakening _ (some limit) none).assemble_rel fun raw _ => ?_)
        exact followRaw_below fun t _ => Or.inl (ih r hplace hfresh (by omega))

theorem unvisited_nil (l : Library) : unvisited l [] = places l := by
  simp [unvisited]

/-- Under a cap above the number of places a section is resolved as without a cap. -/
theorem resolve_eq_uncapped {caller : Option String} {content : Section}
    (h : (places s.library).length < s.maxDepth) :
    (resolve s caller [] content).run (some s.maxDepth) =
      (resolve s caller [] content).run none := by
  refine Below.eq_of_none_weak ((weakening _ (some s.maxDepth) none).assemble_rel fun raw _ => ?_)
  refine followRaw_below fun t _ => Or.inl (follow_eq_uncapped ?_)
  rw [unvisited_nil, List.length_nil]
  omega

theorem compileDocument_eq_uncapped (name : String)
    (h : (places s.library).length < s.maxDepth) :
    compileDocument s name (some s.maxDepth) = compileDocument s name none := by
  unfold compileDocument
  split
  · rfl
  · next document hd =>
    refine congrArg (Except.mapError _) (Below.eq_of_none_weak ?_)
    refine (weakening _ (some s.maxDepth) none).resolveAll_rel fun e _ => ?_
    exact Or.inl (resolve_eq_uncapped h)

/-- Without a cap the step does not fail at the depth fault. -/
def Bottomless {α : Type} (x : Direct α) : Prop :=
  ∀ fault, x.run none = .error fault → fault.isTooDeep = false

def bottomlessness : Simulation Direct Direct where
  rel x _ := Bottomless x
  pure_rel _ _ h := by cases h
  throw_rel _ _ h := Except.error.inj h ▸ rfl
  bind_rel {_ _ x _ f _} hx hf fault h := by
    rw [ReaderT.run_bind] at h
    cases hr : x.run none with
    | error cause =>
      rw [hr] at h
      exact Except.error.inj h ▸ hx cause hr
    | ok a =>
      rw [hr] at h
      exact hf a fault h

theorem bottomless_followRaw {put : Assembly} {caller : Option String} {chain : Chain}
    {raw : String} (h : ∀ t, Bottomless (follow l put chain t)) :
    Bottomless (followRaw l put caller chain raw) := by
  intro fault hf
  rw [ReaderT.run, followRaw_apply, read] at hf
  cases hp : Reference.parse raw caller with
  | error cause =>
    rw [hp] at hf
    exact Except.error.inj hf ▸ rfl
  | ok t =>
    rw [hp] at hf
    exact h t fault hf

theorem seek_not_tooDeep {r : Reference} {fault : Fault} (h : seek l r = .error fault) :
    fault.isTooDeep = false := by
  unfold seek at h
  split at h
  · exact Except.error.inj h ▸ rfl
  · split at h
    · exact Except.error.inj h ▸ rfl
    · exact absurd h (by simp)

theorem bottomless_follow (chain : Chain) (r : Reference) :
    Bottomless (follow l (folding templates) chain r) := by
  induction chain using chain_induction l generalizing r with
  | step chain ih =>
    intro fault hf
    rw [ReaderT.run, follow_apply] at hf
    split at hf
    · exact Except.error.inj hf ▸ rfl
    · next hfresh =>
      cases hs : seek l r with
      | error cause =>
        rw [hs] at hf
        exact Except.error.inj hf ▸ seek_not_tooDeep hs
      | ok content =>
        rw [hs] at hf
        have hr := mem_places_iff.2 ⟨content, seek_eq_ok_iff.1 hs⟩
        let step := followRaw l (folding templates) (some r.document) (chain.extend r.key)
        have hput : bottomlessness.rel (assemble step templates content)
            (assemble step templates content) :=
          bottomlessness.assemble_rel fun _ _ => bottomless_followRaw (ih r hr hfresh)
        exact hput fault hf

theorem bottomless_resolve (caller : Option String) (content : Section) :
    Bottomless (resolve s caller [] content) := by
  let step := refer s caller []
  have hput : bottomlessness.rel (assemble step s.templates content)
      (assemble step s.templates content) :=
    bottomlessness.assemble_rel fun _ _ => bottomless_followRaw (bottomless_follow [])
  exact hput

theorem isTooDeep_compileDocument (s : Sources) (name : String) :
    (Session.Outcome.document (compileDocument s name none)).isTooDeep = false := by
  unfold compileDocument
  split
  · rfl
  · next document _ =>
    let step := resolve s (some name) []
    have hall : bottomlessness.rel (Compilation.resolveAll step document)
        (Compilation.resolveAll step document) :=
      bottomlessness.resolveAll_rel fun e _ => bottomless_resolve (some name) e.2
    cases hc : (Compilation.resolveAll (resolve s (some name) []) document).run none with
    | ok compiled => rfl
    | error fault => exact hall fault hc

/-- A document compiles without memory exactly when all its sections are put together. -/
theorem exists_compileDocument_iff {name : String} {document : Document}
    (hd : s.library.get? name = some document) :
    (∃ v, compileDocument s name none = .ok v) ↔
      ∀ e ∈ document.entries, ∃ v, (resolve s (some name) [] e.2).run none = .ok v := by
  simp only [compileDocument, hd, mapError_eq_ok, Compilation.resolveAll, run_bind_eq_ok,
    run_pure_eq_ok, run_mapM_eq_ok]
  constructor
  · rintro ⟨v, sections, hs, -⟩ e he
    obtain ⟨entry, content, hc, -⟩ := exists_forall₂_iff.1 ⟨sections, hs⟩ e he
    exact ⟨content, hc⟩
  · intro h
    have hsections : ∃ sections, List.Forall₂ (fun (x : String × Section) (y : String × Section) =>
        ∃ a, (resolve s (some name) [] x.2).run none = .ok a ∧ y = (x.1, a))
        document.entries sections := by
      refine exists_forall₂_iff.2 fun e he => ?_
      obtain ⟨content, hc⟩ := h e he
      exact ⟨(e.1, content), content, hc, rfl⟩
    obtain ⟨sections, hs⟩ := hsections
    exact ⟨_, sections, hs, rfl⟩

end Direct

namespace Compilation

open Inheritance Direct

variable {s : Sources}

/-- From a faithful memory a document has the answer that it has without memory. -/
theorem compileDocument_eq_direct (hlib : ∀ name ∈ s.library.names, IsPlain name)
    (hdepth : (places s.library).length < s.maxDepth) {m : Memory} (hm : Faithful s m)
    (name : String) : (compileDocument s name m).1 = Direct.compileDocument s name none := by
  obtain ⟨hlow, -, -⟩ := Session.between_document hlib hm name
  rw [Session.Call.direct, compileDocument_eq_uncapped name hdepth] at hlow
  rcases hlow with heq | hdeep
  · exact (Session.Outcome.document.inj heq).symm
  · exact absurd hdeep (by simp [isTooDeep_compileDocument])

/-- A document compiles exactly when it is there and sound. -/
theorem exists_compileDocument_apply_iff_sound (hlib : ∀ name ∈ s.library.names, IsPlain name)
    (hdepth : (places s.library).length < s.maxDepth) {m : Memory} (hm : Faithful s m)
    {name : String} (hname : name ∈ s.library.names) :
    (∃ v, (compileDocument s name m).1 = .ok v) ↔ ¬ Unsound s name := by
  obtain ⟨document, hd⟩ := Catalog.mem_names_iff.1 hname
  rw [compileDocument_eq_direct hlib hdepth hm, exists_compileDocument_iff hd]
  have hplace (heading : String) (content : Section) (he : (heading, content) ∈ document.entries) :
      (∃ v, (resolve s (some name) [] content).run none = .ok v) ↔ ¬ Broken s ⟨name, heading⟩ := by
    refine exists_resolve_place_iff (r := ⟨name, heading⟩) (hlib name hname) ?_
    rw [target?, hd]
    exact Keyed.get?_eq_some_iff.2 he
  constructor
  · rintro h ⟨document', hd', heading, hk, hb⟩
    obtain rfl := Option.some.inj (hd.symm.trans hd')
    obtain ⟨content, hc⟩ := Keyed.mem_keys_iff.1 hk
    have he := Keyed.get?_eq_some_iff.1 hc
    exact (hplace heading content he).1 (h _ he) hb
  · rintro h ⟨heading, content⟩ he
    refine (hplace heading content he).2 fun hb => h ⟨document, hd, heading, ?_, hb⟩
    exact Keyed.mem_keys_iff.2 ⟨content, Keyed.get?_eq_some_iff.2 he⟩

/-- What a compilation that may leave documents out comes to, document by document. -/
theorem mem_compileNames_skip (hlib : ∀ name ∈ s.library.names, IsPlain name)
    (hdepth : (places s.library).length < s.maxDepth) (names : List String) (done : Result)
    {m : Memory} (hm : Faithful s m) :
    ∃ result, (compileNames s .skip names done m).1 = .ok result ∧ ∀ name,
      (∀ compiled, (name, compiled) ∈ result.documents ↔ (name, compiled) ∈ done.documents ∨
        name ∈ names ∧ Direct.compileDocument s name none = .ok compiled) ∧
      (name ∈ result.skipped ↔ name ∈ done.skipped ∨
        name ∈ names ∧ ∃ fault, Direct.compileDocument s name none = .error fault) := by
  induction names generalizing done m with
  | nil => exact ⟨done, rfl, by simp⟩
  | cons first rest ih =>
    have hfirst := compileDocument_eq_direct hlib hdepth hm first
    have hkeep := (Session.between_document hlib hm first).2.2
    rcases hc : compileDocument s first m with ⟨answer, m'⟩
    rw [hc] at hfirst hkeep
    obtain rfl := hfirst
    cases hanswer : Direct.compileDocument s first none with
    | ok document =>
      obtain ⟨result, hr, h⟩ := ih (done.add first document) hkeep
      rw [hanswer] at hc
      refine ⟨result, by simpa only [compileNames, hc] using hr, fun name => ?_⟩
      obtain ⟨hdone, hskip⟩ := h name
      simp only [hdone, hskip, Result.add, List.mem_append, List.mem_cons]
      grind
    | error fault =>
      obtain ⟨result, hr, h⟩ := ih (done.skip first) hkeep
      rw [hanswer] at hc
      refine ⟨result, by simpa only [compileNames, hc] using hr, fun name => ?_⟩
      obtain ⟨hdone, hskip⟩ := h name
      simp only [hdone, hskip, Result.skip, List.mem_append, List.mem_cons]
      grind

theorem compileNames_skip (hlib : ∀ name ∈ s.library.names, IsPlain name)
    (hdepth : (places s.library).length < s.maxDepth) {names : List String}
    (hnames : ∀ name ∈ names, name ∈ s.library.names) (done : Result) {m : Memory}
    (hm : Faithful s m) :
    ∃ result, (compileNames s .skip names done m).1 = .ok result ∧ ∀ name,
      (name ∈ result.skipped ↔ name ∈ done.skipped ∨ name ∈ names ∧ Unsound s name) ∧
      (name ∈ result.documents.map Prod.fst ↔
        name ∈ done.documents.map Prod.fst ∨ name ∈ names ∧ ¬ Unsound s name) := by
  obtain ⟨result, hr, h⟩ := mem_compileNames_skip hlib hdepth names done hm
  refine ⟨result, hr, fun name => ?_⟩
  obtain ⟨hdone, hskip⟩ := h name
  have hsound (hn : name ∈ names) :
      (∃ v, Direct.compileDocument s name none = .ok v) ↔ ¬ Unsound s name := by
    rw [← compileDocument_eq_direct hlib hdepth hm,
      exists_compileDocument_apply_iff_sound hlib hdepth hm (hnames name hn)]
  have hfault : (∃ fault, Direct.compileDocument s name none = .error fault) ↔
      ¬ ∃ v, Direct.compileDocument s name none = .ok v := by
    cases Direct.compileDocument s name none <;> simp
  constructor
  · rw [hskip, hfault]
    refine or_congr Iff.rfl (and_congr_right fun hn => ?_)
    rw [hsound hn, not_not]
  · simp only [List.mem_map, Prod.exists, exists_and_right, exists_eq_right, hdone, exists_or,
      exists_and_left]
    exact or_congr Iff.rfl (and_congr_right hsound)

theorem compileNames_abort (hlib : ∀ name ∈ s.library.names, IsPlain name)
    (hdepth : (places s.library).length < s.maxDepth) {names : List String}
    (hnames : ∀ name ∈ names, name ∈ s.library.names) (done : Result) {m : Memory}
    (hm : Faithful s m) :
    (∃ result, (compileNames s .abort names done m).1 = .ok result) ↔
      ∀ name ∈ names, ¬ Unsound s name := by
  induction names generalizing done m with
  | nil => exact ⟨fun _ => by simp, fun _ => ⟨done, rfl⟩⟩
  | cons first rest ih =>
    obtain ⟨hfirst, hrest⟩ := List.forall_mem_cons.1 hnames
    have hsound := exists_compileDocument_apply_iff_sound hlib hdepth hm hfirst
    have hkeep := (Session.between_document hlib hm first).2.2
    rcases hc : compileDocument s first m with ⟨answer, m'⟩
    rw [hc] at hsound hkeep
    rw [List.forall_mem_cons, ← hsound]
    cases answer with
    | ok document =>
      simpa only [compileNames, hc, Except.ok.injEq, exists_eq', true_and] using
        ih hrest (done.add first document) hkeep
    | error fault => simp [compileNames, hc]

theorem unsound_mem {name : String} (h : Unsound s name) : name ∈ s.library.names := by
  obtain ⟨document, hd, -⟩ := h
  exact Catalog.mem_names_iff.2 ⟨document, hd⟩

/-- Compilation succeeds exactly on what is sound and acyclic. With a cap above the number of
places and nothing remembered, the documents left out are those with a place from which
inheritance leads to a defect or onto a cycle, all others are compiled, and a compilation that may
leave nothing out succeeds when there is no such document. -/
theorem compile_succeeds_iff_sound (s : Sources) (hlib : ∀ name ∈ s.library.names, IsPlain name)
    (hdepth : (places s.library).length < s.maxDepth) :
    (∃ result, (compile s .skip ∅).1 = .ok result ∧ ∀ name,
      (name ∈ result.skipped ↔ Unsound s name) ∧
      (name ∈ result.documents.map Prod.fst ↔ name ∈ s.library.names ∧ ¬ Unsound s name)) ∧
    ((∃ result, (compile s .abort ∅).1 = .ok result) ↔ ∀ name, ¬ Unsound s name) := by
  have hempty := Resolution.faithful_empty s
  constructor
  · obtain ⟨result, hr, h⟩ := compileNames_skip hlib hdepth (fun _ h => h) ⟨[], []⟩ hempty
    refine ⟨result, hr, fun name => ?_⟩
    obtain ⟨hskip, hdone⟩ := h name
    have hmem : name ∈ s.library.names ∧ Unsound s name ↔ Unsound s name :=
      and_iff_right_of_imp unsound_mem
    rw [hskip, hdone]
    simp [hmem]
  · rw [compile, compileNames_abort hlib hdepth (fun _ h => h) ⟨[], []⟩ hempty]
    exact ⟨fun h name hu => h name (unsound_mem hu) hu, fun h name _ => h name⟩

theorem compile_succeeds_iff_sound_garage :
    let s : Sources := ⟨Session.garage, none, 5⟩
    (∀ name ∈ s.library.names, IsPlain name) ∧ (places s.library).length < s.maxDepth ∧
      (∃ result, (compile s .skip ∅).1 = .ok result ∧ ∀ name,
        (name ∈ result.skipped ↔ Unsound s name) ∧
        (name ∈ result.documents.map Prod.fst ↔ name ∈ s.library.names ∧ ¬ Unsound s name)) ∧
      ((∃ result, (compile s .abort ∅).1 = .ok result) ↔ ∀ name, ¬ Unsound s name) := by
  have hlib : ∀ name ∈ Session.garage.names, IsPlain name := by decide
  have hdepth : (places Session.garage).length < 5 := by decide
  exact ⟨hlib, hdepth, compile_succeeds_iff_sound ⟨Session.garage, none, 5⟩ hlib hdepth⟩

example : ((compile ⟨Session.garage, none, 5⟩ .skip ∅).1.map Result.skipped) = .ok ["base"] := by
  cbv

end Compilation

end SectionCompiler
