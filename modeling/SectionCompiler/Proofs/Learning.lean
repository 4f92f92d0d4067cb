import SectionCompiler.Proofs.Exploring
import SectionCompiler.Proofs.Memory

/-! What resolution without templates learns. It resolves the references of a section one after
another, and what it remembers is closed: with a section it remembers all that the section
inherits from, also when it fails. -/

namespace SectionCompiler

namespace Resolution

open Inheritance Direct Relation

def Remembers (cache : Catalog Section) (r : Reference) : Prop :=
  IsPlain r.document ∧ cache.contains r.key = true

/-- What is remembered is the content of sections of the library, and with a section that of all
references that it names. -/
def Closed (l : Library) (cache : Catalog Section) : Prop :=
  ∀ key, cache.contains key = true → ∃ r ∈ places l, r.key = key ∧
    ∀ t ∈ named l r, cache.contains t.key = true

def Grows (cache cache' : Catalog Section) : Prop :=
  ∀ key, cache.contains key = true → cache'.contains key = true

theorem contains_insert {cache : Catalog Section} {key k : String} {content : Section} :
    (cache.insert key content).contains k = true ↔ k = key ∨ cache.contains k = true := by
  rw [Catalog.contains, Catalog.get?_insert]
  by_cases h : k = key
  · simp [h]
  · simp [h, Catalog.contains]

theorem closed_empty (l : Library) : Closed l ∅ := by
  intro key h
  exact absurd h (by simp [Catalog.contains])

theorem Grows.refl (cache : Catalog Section) : Grows cache cache := fun _ h => h

theorem Grows.trans {a b c : Catalog Section} (h : Grows a b) (h' : Grows b c) : Grows a c :=
  fun key hk => h' key (h key hk)

theorem grows_insert (cache : Catalog Section) (key : String) (content : Section) :
    Grows cache (cache.insert key content) :=
  fun _ h => contains_insert.2 (Or.inr h)

/-- When all references that a section names are remembered, so may its own content be. -/
theorem closed_insert {l : Library} {cache : Catalog Section} {r : Reference} {content : Section}
    (h : Closed l cache) (hr : r ∈ places l)
    (hnamed : ∀ t ∈ named l r, cache.contains t.key = true) :
    Closed l (cache.insert r.key content) := by
  intro key hkey
  have hgrow := grows_insert cache r.key content
  rcases contains_insert.1 hkey with rfl | hkey
  · exact ⟨r, hr, rfl, fun t ht => hgrow _ (hnamed t ht)⟩
  · obtain ⟨p, hp, hpk, hpn⟩ := h key hkey
    exact ⟨p, hp, hpk, fun t ht => hgrow _ (hpn t ht)⟩

variable {l : Library}

theorem isPlain_of_mem_places (hlib : ∀ name ∈ l.names, IsPlain name) {r : Reference}
    (h : r ∈ places l) : IsPlain r.document := by
  obtain ⟨content, hc⟩ := mem_places_iff.1 h
  obtain ⟨document, hd, -⟩ := Option.bind_eq_some_iff.1 hc
  exact hlib _ (Catalog.mem_names_iff.2 ⟨document, hd⟩)

/-- With a reference everything that it inherits from is remembered. -/
theorem Closed.remembers_of_reaches (hlib : ∀ name ∈ l.names, IsPlain name)
    {cache : Catalog Section} (h : Closed l cache) {r t : Reference} (hr : Remembers cache r)
    (ht : ReflTransGen (Inherits l) r t) : Remembers cache t := by
  induction ht with
  | refl => exact hr
  | tail _ hs ih =>
    obtain ⟨p, hp, hkey, hnamed⟩ := h _ ih.2
    obtain rfl := Reference.eq_of_key_eq (isPlain_of_mem_places hlib hp) ih.1 hkey
    exact ⟨isPlain_of_inherits ih.1 hs, hnamed _ (mem_named_iff.2 hs)⟩

/-- Resolves some references one after another and drops what they stand for. -/
def visit (step : String → Resolution Section) : List String → Memory → Except Fault Unit × Memory
  | [], m => (.ok (), m)
  | raw :: rest, m =>
    match step raw m with
    | (.ok _, m) => visit step rest m
    | (.error fault, m) => (.error fault, m)

def dropValue {α : Type} (answer : Except Fault α × Memory) : Except Fault Unit × Memory :=
  (answer.1.map fun _ => (), answer.2)

theorem visit_append (step : String → Resolution Section) (xs ys : List String) (m : Memory) :
    visit step (xs ++ ys) m = match visit step xs m with
      | (.ok _, m') => visit step ys m'
      | (.error fault, m') => (.error fault, m') := by
  induction xs generalizing m with
  | nil => rfl
  | cons raw rest ih =>
    rw [List.cons_append, visit, visit]
    rcases step raw m with ⟨_ | _, m'⟩
    · rfl
    · exact ih m'

theorem dropValue_bind_pure {α β : Type} (x : Resolution α) (f : α → β) (m : Memory) :
    dropValue ((x >>= fun a => pure (f a)) m) = dropValue (x m) := by
  rw [run_bind]
  rcases x m with ⟨_ | _, _⟩ <;> rfl

theorem dropValue_mapM (step : String → Resolution Section) (raws : List String) (m : Memory) :
    dropValue (raws.mapM step m) = visit step raws m := by
  induction raws generalizing m with
  | nil => simp only [List.mapM_nil]; rfl
  | cons raw rest ih =>
    rw [List.mapM_cons, run_bind, visit]
    rcases step raw m with ⟨_ | c, m'⟩
    · rfl
    · dsimp only
      rw [dropValue_bind_pure, ih]

theorem dropValue_expandEntry (step : String → Resolution Section) (e : Entry) (m : Memory) :
    dropValue (expandEntry step none e m) =
      visit step (if Directive.ofKey? e.1 = some .inherit then e.2.strings else []) m := by
  unfold expandEntry
  cases Directive.ofKey? e.1 with
  | none => rfl
  | some d =>
    cases d with
    | inherit => rw [if_pos rfl, dropValue_bind_pure, dropValue_mapM]
    | template name => rfl

theorem dropValue_mapM_expandEntry (step : String → Resolution Section) (es : List Entry)
    (m : Memory) :
    dropValue (es.mapM (expandEntry step none) m) = visit step (Section.references ⟨es⟩) m := by
  induction es generalizing m with
  | nil => simp only [List.mapM_nil]; rfl
  | cons e rest ih =>
    have he := dropValue_expandEntry step e m
    rw [List.mapM_cons, run_bind, Section.references, List.flatMap_cons, visit_append, ← he]
    rcases expandEntry step none e m with ⟨_ | part, m'⟩
    · rfl
    · dsimp only [dropValue, Except.map]
      exact (dropValue_bind_pure _ _ m').trans (ih m')

/-- Without templates a section is put together by resolving its references in order. -/
theorem dropValue_assemble (step : String → Resolution Section) (content : Section) (m : Memory) :
    dropValue (assemble step none content m) = visit step content.references m := by
  rw [assemble, dropValue_bind_pure, dropValue_mapM_expandEntry]

/-- After a step the memory is closed and has forgotten nothing, and when the step has succeeded it
knows the references. -/
structure Learns {α : Type} (l : Library) (refs : List Reference) (cache : Catalog Section)
    (answer : Except Fault α × Memory) : Prop where
  closed : Closed l answer.2.cache
  grows : Grows cache answer.2.cache
  knows : ∀ v, answer.1 = .ok v → ∀ t ∈ refs, answer.2.cache.contains t.key = true

theorem learns_error {α : Type} {refs : List Reference} {cache : Catalog Section} {m : Memory}
    (fault : Fault) (hm : Closed l m.cache) (hg : Grows cache m.cache) :
    Learns (α := α) l refs cache (.error fault, m) :=
  ⟨hm, hg, fun _ h => absurd h (by simp)⟩

theorem learns_visit {step : String → Resolution Section} {caller : Option String}
    {raws : List String} {m : Memory} (hm : Closed l m.cache)
    (hstep : ∀ raw m, Closed l m.cache → Learns l (readings caller [raw]) m.cache (step raw m)) :
    Learns l (readings caller raws) m.cache (visit step raws m) := by
  induction raws generalizing m with
  | nil => exact ⟨hm, Grows.refl _, fun _ _ t ht => absurd ht List.not_mem_nil⟩
  | cons raw rest ih =>
    have hfirst := hstep raw m hm
    rw [visit]
    rcases hr : step raw m with ⟨fault | c, m'⟩
    · rw [hr] at hfirst
      exact learns_error fault hfirst.closed hfirst.grows
    · rw [hr] at hfirst
      have hrest := ih hfirst.closed
      refine ⟨hrest.closed, hfirst.grows.trans hrest.grows, fun v hv t ht => ?_⟩
      rw [← List.singleton_append, readings, List.filterMap_append] at ht
      rcases List.mem_append.1 ht with ht | ht
      · exact hrest.grows _ (hfirst.knows c rfl t ht)
      · exact hrest.knows v hv t ht

theorem learns_of_dropValue {α : Type} {refs : List Reference} {cache : Catalog Section}
    {answer : Except Fault α × Memory} (h : Learns l refs cache (dropValue answer)) :
    Learns l refs cache answer :=
  ⟨h.closed, h.grows, fun v hv => h.knows () (by simp [dropValue, hv, Except.map])⟩

variable {s : Sources} {caller : Option String} {raw : String} {chain : Chain} {r : Reference}
  {m : Memory}

theorem referWithin_of_error {fault : Reference.Fault} (h : Reference.parse raw caller = .error fault)
    (room : Nat) : referWithin s room caller chain raw m = (.error (.reference fault), m) := by
  rw [referWithin_apply, h]

theorem referWithin_of_remembered {content : Section} (h : Reference.parse raw caller = .ok r)
    (hc : m.cache.get? r.key = some content) (room : Nat) :
    referWithin s room caller chain raw m =
      (.ok content, { m with log := m.log ++ [.fetch r.key true] }) := by
  simp only [referWithin_apply, h, hc, Option.isSome_some]

theorem referWithin_of_mem_chain (h : Reference.parse raw caller = .ok r)
    (hc : m.cache.get? r.key = none) (hchain : r.key ∈ chain) (room : Nat) :
    referWithin s room caller chain raw m =
      (.error (.cycle (chain.extend r.key)), { m with log := m.log ++ [.fetch r.key false] }) := by
  simp only [referWithin_apply, h, hc, Option.isSome_none, if_pos hchain]

theorem referWithin_zero (h : Reference.parse raw caller = .ok r)
    (hc : m.cache.get? r.key = none) (hchain : r.key ∉ chain) :
    referWithin s 0 caller chain raw m =
      (.error (.tooDeep r.key s.maxDepth), { m with log := m.log ++ [.fetch r.key false] }) := by
  simp only [referWithin_apply, h, hc, Option.isSome_none, if_neg hchain]

/-- Remembers the content of a reference when it has been put together. -/
def record (r : Reference) : Except Fault Section × Memory → Except Fault Section × Memory
  | (.ok v, m) => (.ok v, ⟨m.cache.insert r.key v, m.log ++ [.store r.key]⟩)
  | (.error fault, m) => (.error fault, m)

/-- The memory after a reference has been missed in the cache and looked up in the library. -/
def Memory.asked (m : Memory) (l : Library) (r : Reference) : Memory :=
  { m with log := m.log ++ [.fetch r.key false, .look r.document (l.get? r.document).isSome] }

/-- A reference that is new and has room on the chain is sought, and the log is all that changes
before its section is put together. -/
theorem referWithin_asked (h : Reference.parse raw caller = .ok r)
    (hc : m.cache.get? r.key = none) (hchain : r.key ∉ chain) (room : Nat) :
    referWithin s (room + 1) caller chain raw m =
      match Direct.seek s.library r with
      | .error fault => (.error fault, m.asked s.library r)
      | .ok content => record r <|
        assemble (referWithin s room (some r.document) (chain.extend r.key)) s.templates content
          (m.asked s.library r) := by
  simp only [referWithin_apply, h, hc, Option.isSome_none, if_neg hchain]
  rw [settle, run_bind, seek_apply]
  dsimp only [Memory.asked]
  rw [List.append_assoc, List.singleton_append]
  cases Direct.seek s.library r with
  | error fault => rfl
  | ok content =>
    dsimp only
    rw [run_bind]
    rcases assemble (referWithin s room _ _) s.templates content _ with ⟨_ | _, _⟩ <;> rfl

theorem referWithin_succ (h : Reference.parse raw caller = .ok r)
    (hc : m.cache.get? r.key = none) (hchain : r.key ∉ chain) (room : Nat) :
    ∃ m', m'.cache = m.cache ∧ referWithin s (room + 1) caller chain raw m =
      match Direct.seek s.library r with
      | .error fault => (.error fault, m')
      | .ok content => record r <|
        assemble (referWithin s room (some r.document) (chain.extend r.key)) s.templates content
          m' :=
  ⟨m.asked s.library r, rfl, referWithin_asked h hc hchain room⟩

/-- How the resolution of a reference succeeds: its content is remembered, or its section is put
together and remembered then. -/
theorem cases_of_referWithin {room : Nat} {v : Section} {m' : Memory}
    (h : referWithin s room caller chain raw m = (.ok v, m')) :
    ∃ r, Reference.parse raw caller = .ok r ∧
      (m.cache.get? r.key = some v ∧ m' = { m with log := m.log ++ [.fetch r.key true] } ∨
        ∃ room' content m₁, room = room' + 1 ∧ target? s.library r = some content ∧
          assemble (referWithin s room' (some r.document) (chain.extend r.key)) s.templates content
            (m.asked s.library r) = (.ok v, m₁) ∧
          m' = ⟨m₁.cache.insert r.key v, m₁.log ++ [.store r.key]⟩) := by
  cases hparse : Reference.parse raw caller with
  | error fault =>
    rw [referWithin_of_error hparse] at h
    cases h
  | ok r =>
    refine ⟨r, rfl, ?_⟩
    cases hc : m.cache.get? r.key with
    | some found =>
      rw [referWithin_of_remembered hparse hc] at h
      cases h
      exact Or.inl ⟨rfl, rfl⟩
    | none =>
      by_cases hchain : r.key ∈ chain
      · rw [referWithin_of_mem_chain hparse hc hchain] at h
        cases h
      cases room with
      | zero =>
        rw [referWithin_zero hparse hc hchain] at h
        cases h
      | succ room =>
        rw [referWithin_asked hparse hc hchain] at h
        cases hseek : Direct.seek s.library r with
        | error fault =>
          rw [hseek] at h
          cases h
        | ok content =>
          rw [hseek] at h
          dsimp only at h
          rcases hput : assemble (referWithin s room (some r.document) (chain.extend r.key))
            s.templates content (m.asked s.library r) with ⟨fault | w, m₁⟩
          · rw [hput] at h
            cases h
          · rw [hput] at h
            cases h
            exact Or.inr ⟨room, content, m₁, rfl, seek_eq_ok_iff.1 hseek, hput, rfl⟩

theorem learns_assemble {step : String → Resolution Section} {content : Section}
    (hm : Closed l m.cache)
    (hstep : ∀ raw m, Closed l m.cache → Learns l (readings caller [raw]) m.cache (step raw m)) :
    Learns l (readings caller content.references) m.cache (assemble step none content m) := by
  refine learns_of_dropValue ?_
  rw [dropValue_assemble]
  exact learns_visit hm hstep

theorem readings_singleton (h : Reference.parse raw caller = .ok r) :
    readings caller [raw] = [r] :=
  readings_cons h []

theorem named_of_target {content : Section} (h : target? l r = some content) :
    named l r = readings (some r.document) content.references := by
  rw [named, h]

/-- When the references that a section names have been learned, its own content may be recorded. -/
theorem learns_record {answer : Except Fault Section × Memory} (hr : r ∈ places l)
    {cache : Catalog Section}
    (h : Learns l (named l r) cache answer) : Learns l [r] cache (record r answer) := by
  rcases answer with ⟨fault | v, m'⟩
  · exact learns_error fault h.closed h.grows
  · refine ⟨closed_insert h.closed hr (h.knows v rfl), h.grows.trans (grows_insert _ _ _),
      fun _ _ t ht => ?_⟩
    rw [List.mem_singleton.1 ht]
    exact contains_insert.2 (Or.inl rfl)

/-- Resolving a reference keeps the memory closed and remembers the reference. -/
theorem learns_referWithin (htemplates : s.templates = none) (room : Nat) (caller : Option String)
    (chain : Chain) (raw : String) (m : Memory) (hm : Closed s.library m.cache) :
    Learns s.library (readings caller [raw]) m.cache (referWithin s room caller chain raw m) := by
  induction room using Nat.strongRecOn generalizing caller chain raw m with
  | _ room ih =>
    cases hp : Reference.parse raw caller with
    | error fault =>
      rw [referWithin_of_error hp]
      exact learns_error _ hm (Grows.refl _)
    | ok r =>
      rw [readings_singleton hp]
      cases hc : m.cache.get? r.key with
      | some content =>
        rw [referWithin_of_remembered hp hc]
        refine ⟨hm, Grows.refl _, fun v _ t ht => ?_⟩
        rw [List.mem_singleton.1 ht]
        exact Option.isSome_iff_exists.2 ⟨content, hc⟩
      | none =>
        by_cases hchain : r.key ∈ chain
        · rw [referWithin_of_mem_chain hp hc hchain]
          exact learns_error _ hm (Grows.refl _)
        · cases room with
          | zero =>
            rw [referWithin_zero hp hc hchain]
            exact learns_error _ hm (Grows.refl _)
          | succ room =>
            obtain ⟨m', hcache, hanswer⟩ := referWithin_succ (s := s) hp hc hchain room
            rw [← hcache] at hm ⊢
            rw [hanswer, htemplates]
            cases hs : Direct.seek s.library r with
            | error fault => exact learns_error _ hm (Grows.refl _)
            | ok content =>
              have hcontent := seek_eq_ok_iff.1 hs
              refine learns_record (mem_places_iff.2 ⟨content, hcontent⟩) ?_
              rw [named_of_target hcontent]
              exact learns_assemble hm fun raw m hm =>
                ih room (Nat.lt_succ_self room) (some r.document) (chain.extend r.key) raw m hm

end Resolution

end SectionCompiler
