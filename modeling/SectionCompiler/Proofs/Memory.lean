import SectionCompiler.Proofs.Below

/-! What is remembered is what would be found anew. A faithful memory holds, under the key of a
plainly named reference, what resolution without memory finds for it, and a resolution step keeps
its memory faithful also when it fails. From a faithful memory a step answers between resolution
without memory under the same cap and resolution without memory and without a cap. -/

namespace SectionCompiler.Resolution

open Inheritance Direct

variable {α β : Type}

theorem run_bind (x : Resolution α) (f : α → Resolution β) (m : Memory) :
    (x >>= f) m = match x m with
      | (.ok a, m') => f a m'
      | (.error fault, m') => (.error fault, m') := by
  change (ExceptT.bind x f) m = _
  simp only [ExceptT.bind, ExceptT.mk, bind, StateT.bind]
  rcases x m with ⟨_ | _, _⟩ <;> rfl

theorem run_bind_ok_iff {x : Resolution α} {f : α → Resolution β} {y : β} {m m' : Memory} :
    (x >>= f) m = (.ok y, m') ↔ ∃ a m₁, x m = (.ok a, m₁) ∧ f a m₁ = (.ok y, m') := by
  rw [run_bind]
  rcases x m with ⟨fault | a, m₁⟩
  · constructor
    · rintro ⟨⟩
    · rintro ⟨_, _, ⟨⟩, _⟩
  · constructor
    · intro h
      exact ⟨a, m₁, rfl, h⟩
    · rintro ⟨_, _, ⟨⟩, h⟩
      exact h

theorem run_pure_ok_iff {x y : α} {m m' : Memory} :
    (pure x : Resolution α) m = (.ok y, m') ↔ x = y ∧ m = m' := by
  rw [show (pure x : Resolution α) m = (.ok x, m) from rfl, Prod.mk.injEq, Except.ok.injEq]

/-- Each remembered content is what resolution without memory finds for a plainly named reference
of that key. -/
def Faithful (s : Sources) (m : Memory) : Prop :=
  ∀ key content, m.cache.get? key = some content → ∃ r : Reference, r.key = key ∧
    IsPlain r.document ∧ follow s.library (folding s.templates) [] r none = .ok content

theorem faithful_empty (s : Sources) : Faithful s ∅ := by
  intro key content h
  exact absurd h (by simp [show (∅ : Memory).cache = ∅ from rfl])

/-- The step answers between two runs without memory and keeps a faithful memory. -/
def Between (s : Sources) (x : Direct α) (step : Resolution α) : Prop :=
  ∀ m, Faithful s m →
    Below Fault.isTooDeep (x.run (some s.maxDepth)) (step m).1 ∧
      Below Fault.isTooDeep (step m).1 (x.run none) ∧ Faithful s (step m).2

variable {s : Sources}

theorem between_pure (a : α) : Between s (pure a) (pure a) :=
  fun _ hm => ⟨Below.refl _, Below.refl _, hm⟩

theorem between_throw (fault : Fault) : Between s (throw fault : Direct α) (throw fault) :=
  fun _ hm => ⟨Below.refl _, Below.refl _, hm⟩

theorem between_bind {x : Direct α} {step : Resolution α} {f : α → Direct β}
    {next : α → Resolution β} (h : Between s x step) (hf : ∀ a, Between s (f a) (next a)) :
    Between s (x >>= f) (step >>= next) := by
  intro m hm
  obtain ⟨hlow, hhigh, hkeep⟩ := h m hm
  rw [ReaderT.run_bind, ReaderT.run_bind, run_bind]
  rcases hstep : step m with ⟨answer, m'⟩
  rw [hstep] at hlow hhigh hkeep
  cases answer with
  | error fault =>
    exact ⟨hlow.bind fun a => Below.refl _,
      Below.bind (f := fun a => (f a).run none) hhigh fun a => Below.refl _, hkeep⟩
  | ok a =>
    obtain ⟨hlow', hhigh', hkeep'⟩ := hf a m' hkeep
    refine ⟨?_, ?_, hkeep'⟩
    · rcases hlow with h | ⟨fault, hw, h⟩
      · rw [h]
        exact hlow'
      · rw [h]
        exact Below.of_weak hw _
    · rw [hhigh.eq_ok rfl]
      exact hhigh'

def betweenness (s : Sources) : Simulation Direct Resolution where
  rel := Between s
  pure_rel := between_pure
  throw_rel _ := between_throw _
  bind_rel := between_bind

theorem faithful_store {m : Memory} {r : Reference} {content : Section} (hm : Faithful s m)
    (hr : IsPlain r.document)
    (h : follow s.library (folding s.templates) [] r none = .ok content) :
    Faithful s (store r.key content m).2 := by
  intro key found hfound
  rw [store, Catalog.get?_insert] at hfound
  split at hfound
  · next he => exact ⟨r, he.symm, hr, Option.some.inj hfound ▸ h⟩
  · exact hm key found hfound

/-- What is remembered for a reference is found for it anew under every chain that leads to it. -/
theorem follow_of_remembered {m : Memory} {chain : Chain} {r : Reference} {content : Section}
    (hm : Faithful s m) (h : m.cache.get? r.key = some content) (hr : IsPlain r.document)
    (ht : Trail s.library chain r) :
    follow s.library (folding s.templates) chain r none = .ok content := by
  obtain ⟨p, hkey, hp, hfound⟩ := hm _ _ h
  obtain rfl := Reference.eq_of_key_eq hp hr hkey
  exact follow_of_trail hfound hp ht

theorem seek_apply (r : Reference) (m : Memory) :
    seek s r m = (Direct.seek s.library r,
      { m with log := m.log ++ [.look r.document (s.library.get? r.document).isSome] }) := by
  rw [seek, run_bind, look, Direct.seek]
  dsimp only
  cases s.library.get? r.document with
  | none => rfl
  | some document => cases h : document.get? r.heading <;> simp only [h] <;> rfl

theorem referWithin_apply (room : Nat) (caller : Option String) (chain : Chain) (raw : String)
    (m : Memory) :
    referWithin s room caller chain raw m =
      match Reference.parse raw caller with
      | .error fault => (.error (.reference fault), m)
      | .ok r =>
        let found := m.cache.get? r.key
        let m' := { m with log := m.log ++ [.fetch r.key found.isSome] }
        match found with
        | some content => (.ok content, m')
        | none =>
          if r.key ∈ chain then (.error (.cycle (chain.extend r.key)), m')
          else match room with
          | 0 => (.error (.tooDeep r.key s.maxDepth), m')
          | room + 1 =>
            settle s r (assemble (referWithin s room (some r.document) (chain.extend r.key))
              s.templates) m' := by
  rw [referWithin.eq_def]
  cases Reference.parse raw caller with
  | error fault => rfl
  | ok r =>
    dsimp only
    rw [run_bind, fetch]
    dsimp only
    cases m.cache.get? r.key with
    | some content => rfl
    | none =>
      dsimp only
      split
      · rfl
      · cases room <;> rfl

/-- Settling a reference answers between, when putting its section together does. -/
theorem between_settle {chain : Chain} {r : Reference} {put : Section → Resolution Section}
    (hr : IsPlain r.document) (hfresh : r.key ∉ chain) (hdepth : chain.length < s.maxDepth)
    (hput : ∀ content, target? s.library r = some content →
      Between s (assemble (Direct.refer s (some r.document) (chain.extend r.key)) s.templates
        content) (put content)) :
    Between s (follow s.library (folding s.templates) chain r) (settle s r put) := by
  have hroom : (some s.maxDepth).filter (· ≤ chain.length) = none := by
    rw [Option.filter_some, if_neg (by simpa using hdepth)]
  intro m hm
  simp only [ReaderT.run, follow_of_fresh hfresh hroom, follow_of_fresh hfresh (Option.filter_none _)]
  rw [settle, run_bind, seek_apply]
  cases hs : Direct.seek s.library r with
  | error fault => exact ⟨Below.refl _, Below.refl _, hm⟩
  | ok content =>
    dsimp only
    rw [run_bind]
    obtain ⟨hlow, hhigh, hkeep⟩ := hput content (seek_eq_ok_iff.1 hs)
      { m with log := m.log ++ [.look r.document (s.library.get? r.document).isSome] } hm
    rcases hp : put content _ with ⟨answer, m'⟩
    rw [hp] at hlow hhigh hkeep
    cases answer with
    | error fault => exact ⟨hlow, hhigh, hkeep⟩
    | ok v =>
      have hv : follow s.library (folding s.templates) chain r none = .ok v := by
        rw [follow_of_fresh hfresh (Option.filter_none _), hs]
        exact hhigh.eq_ok rfl
      exact ⟨hlow, hhigh, faithful_store hkeep hr (follow_of_trail hv hr (trail_nil r))⟩

/-- A resolution step answers between two runs without memory. -/
theorem between_referWithin {room : Nat} {caller : Option String} {chain : Chain} {raw : String}
    (hroom : room = s.maxDepth - chain.length) (hcaller : Reference.PlainCaller caller)
    (htrail : ∀ r, Reference.parse raw caller = .ok r → Trail s.library chain r) :
    Between s (Direct.refer s caller chain raw) (referWithin s room caller chain raw) := by
  induction room using Nat.strongRecOn generalizing caller chain raw with
  | _ room ih =>
    intro m hm
    rw [referWithin_apply]
    simp only [Direct.refer, ReaderT.run, followRaw_apply, Direct.read]
    cases hp : Reference.parse raw caller with
    | error fault => exact ⟨Below.refl _, Below.refl _, hm⟩
    | ok r =>
      have hr := Reference.isPlain_of_parse hcaller hp
      have ht := htrail r hp
      dsimp only [Except.mapError]
      cases hc : m.cache.get? r.key with
      | some content =>
        have hv := follow_of_remembered hm hc hr ht
        have hlow := hv ▸ follow_below_uncapped s.maxDepth chain r
        exact ⟨hlow, hv ▸ Below.refl _, hm⟩
      | none =>
        by_cases hfresh : r.key ∈ chain
        · simp only [follow_apply, if_pos hfresh]
          exact ⟨Below.refl _, Below.refl _, hm⟩
        · simp only [if_neg hfresh]
          cases room with
          | zero =>
            refine ⟨?_, Below.of_weak rfl _, hm⟩
            rw [follow_apply, if_neg hfresh, Option.filter_some, if_pos (by simp; omega)]
            exact Below.refl _
          | succ room =>
            refine between_settle hr hfresh (by omega) (fun content hcontent => ?_) _ hm
            refine (betweenness s).assemble_rel fun raw' hraw' => ?_
            refine ih room (Nat.lt_succ_self room) ?_ (plainCaller_some hr) fun t hpt => ?_
            · rw [Chain.extend, List.length_append, List.length_singleton]
              omega
            · exact trail_extend hr ht ⟨content, hcontent, raw', hraw', hpt⟩

theorem between_refer {caller : Option String} {chain : Chain} {raw : String}
    (hcaller : Reference.PlainCaller caller)
    (htrail : ∀ r, Reference.parse raw caller = .ok r → Trail s.library chain r) :
    Between s (Direct.refer s caller chain raw) (refer s caller chain raw) :=
  between_referWithin rfl hcaller htrail

theorem between_resolve {caller : Option String} (content : Section)
    (hcaller : Reference.PlainCaller caller) :
    Between s (Direct.resolve s caller [] content) (resolve s caller [] content) :=
  (betweenness s).assemble_rel fun _ _ => between_refer hcaller fun r _ => trail_nil r

/-- What each step keeps a run of steps keeps, also one that fails. -/
def keeping (P : Memory → Prop) : Simulation Resolution Resolution where
  rel _ step := ∀ m, P m → P (step m).2
  pure_rel _ _ hm := hm
  throw_rel _ _ hm := hm
  bind_rel {_ _ _ step _ next} h hf m hm := by
    have hkeep := h m hm
    rw [run_bind]
    rcases hs : step m with ⟨fault | a, m'⟩
    · rwa [hs] at hkeep
    · rw [hs] at hkeep
      exact hf a m' hkeep

section

variable {P : Memory → Prop}

/-- What the resolution of each reference keeps the assembly of a section keeps. -/
theorem keeps_assemble {step : String → Resolution Section} {templates : Option TemplateStore}
    {content : Section} {m : Memory} (h : ∀ raw m, P m → P (step raw m).2) (hm : P m) :
    P (assemble step templates content m).2 :=
  have hkeep : (keeping P).rel (assemble step templates content)
      (assemble step templates content) := (keeping P).assemble_rel fun raw _ => h raw
  hkeep m hm

/-- What the resolution of each section keeps the resolution of a document keeps. -/
theorem keeps_resolveAll {step : Section → Resolution Section} {document : Document} {m : Memory}
    (h : ∀ content m, P m → P (step content m).2) (hm : P m) :
    P (Compilation.resolveAll step document m).2 :=
  have hkeep : (keeping P).rel (Compilation.resolveAll step document)
      (Compilation.resolveAll step document) := (keeping P).resolveAll_rel fun e _ => h e.2
  hkeep m hm

end

end SectionCompiler.Resolution
