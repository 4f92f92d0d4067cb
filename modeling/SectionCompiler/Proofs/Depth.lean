import SectionCompiler.Proofs.Learning
import SectionCompiler.Proofs.Soundness

/-! When a chain of references is too long. A reference is looked up in the memory before the chain
is looked at, so what counts for the depth fault is a chain on which every reference is met for the
first time. -/

namespace SectionCompiler

namespace Resolution

open Inheritance Direct Relation

variable {l : Library} {s : Sources} {caller : Option String} {raw : String} {chain : Chain}
  {r : Reference} {m : Memory}

/-- What is remembered, or what some references lead to. -/
def Met (l : Library) (cache : Catalog Section) (refs : List Reference) (u : Reference) : Prop :=
  Remembers cache u ∨ ReachedFrom l refs u

theorem met_nil (cache : Catalog Section) : Met l cache [] = Remembers cache := by
  funext u
  simp [Met, ReachedFrom]

theorem met_cons {cache : Catalog Section} {r u : Reference} {refs : List Reference} :
    Met l cache (r :: refs) u ↔ Met l cache [r] u ∨ ReachedFrom l refs u := by
  rw [Met, Met, reachedFrom_cons, reachedFrom_singleton, or_assoc]

theorem met_of_remembers {cache cache' : Catalog Section} {r : Reference}
    (h : ∀ u, Remembers cache' u ↔ Met l cache [r] u) (refs : List Reference) :
    Met l cache' refs = Met l cache (r :: refs) := by
  funext u
  rw [met_cons, ← h, Met]

/-- The answer of a step that resolves some references in order, with `room` on the chain. When it
succeeds no chain with more than `room` unexplored members begins at any of them, and what they
lead to has come to be remembered; a fault is the depth fault, and such a chain begins there. -/
def Explores {α : Type} (s : Sources) (refs : List Reference) (room : Nat)
    (cache : Catalog Section) : Except Fault α × Memory → Prop
  | (.ok _, m') =>
    (∀ before t after, refs = before ++ t :: after →
      ¬ Deep s.library (Met s.library cache before) t room) ∧
    ∀ u, Remembers m'.cache u ↔ Met s.library cache refs u
  | (.error fault, _) =>
    (∃ key, fault = .tooDeep key s.maxDepth) ∧ ∃ before t after, refs = before ++ t :: after ∧
      Deep s.library (Met s.library cache before) t room

variable {cache : Catalog Section}

theorem explores_of_dropValue {α : Type} {refs : List Reference} {room : Nat}
    {answer : Except Fault α × Memory} (h : Explores s refs room cache (dropValue answer)) :
    Explores s refs room cache answer := by
  rcases answer with ⟨_ | _, _⟩ <;> exact h

theorem eq_of_singleton_eq_append {t : Reference} {before after : List Reference}
    (h : [r] = before ++ t :: after) : before = [] ∧ t = r ∧ after = [] := by
  rcases List.cons_eq_append_iff.1 h with ⟨rfl, ht⟩ | ⟨_, rfl, ht⟩
  · simpa [eq_comm] using ht
  · simp at ht

theorem explores_singleton_ok {α : Type} {room : Nat} {v : α} {m' : Memory}
    (hdeep : ¬ Deep s.library (Remembers cache) r room)
    (hmet : ∀ u, Remembers m'.cache u ↔ Met s.library cache [r] u) :
    Explores s [r] room cache (.ok v, m') := by
  refine ⟨fun before t after h => ?_, hmet⟩
  obtain ⟨rfl, rfl, -⟩ := eq_of_singleton_eq_append h
  rwa [met_nil]

theorem explores_singleton_error {α : Type} {room : Nat} {m' : Memory} {key : String}
    (hdeep : Deep s.library (Remembers cache) r room) :
    Explores (α := α) s [r] room cache (.error (.tooDeep key s.maxDepth), m') :=
  ⟨⟨key, rfl⟩, [], r, [], rfl, by rwa [met_nil]⟩

theorem Explores.cons_error {α β : Type} {t : Reference} {refs : List Reference} {room : Nat}
    {fault : Fault} {m' m'' : Memory} (h : Explores (α := α) s [t] room cache (.error fault, m')) :
    Explores (α := β) s (t :: refs) room cache (.error fault, m'') := by
  obtain ⟨hfault, before, u, after, hsplit, hdeep⟩ := h
  obtain ⟨rfl, rfl, -⟩ := eq_of_singleton_eq_append hsplit
  exact ⟨hfault, [], u, refs, rfl, hdeep⟩

/-- When the first of some references has been explored, the others are explored from what is
remembered then. -/
theorem Explores.cons {α β : Type} {t : Reference} {refs : List Reference} {room : Nat} {v : α}
    {m' : Memory} {answer : Except Fault β × Memory}
    (h : Explores s [t] room cache (.ok v, m')) (hrest : Explores s refs room m'.cache answer) :
    Explores s (t :: refs) room cache answer := by
  obtain ⟨hroom, hmet⟩ := h
  rcases answer with ⟨fault | w, m''⟩
  · obtain ⟨hfault, before, u, after, hsplit, hdeep⟩ := hrest
    refine ⟨hfault, t :: before, u, after, by rw [hsplit, List.cons_append], ?_⟩
    rwa [← met_of_remembers hmet]
  · obtain ⟨hrooms, hmets⟩ := hrest
    rw [met_of_remembers hmet] at hmets
    refine ⟨fun before u after hsplit => ?_, hmets⟩
    cases before with
    | nil =>
      obtain ⟨rfl, -⟩ := List.cons.inj hsplit
      exact hroom [] t [] rfl
    | cons b before =>
      obtain ⟨rfl, htail⟩ := List.cons.inj hsplit
      rw [← met_of_remembers hmet]
      exact hrooms before u after htail

theorem explores_visit {step : String → Resolution Section} {room : Nat} {raws : List String}
    (hparse : ∀ raw ∈ raws, ∃ t, Reference.parse raw caller = .ok t)
    (hlearn : ∀ raw m, Closed s.library m.cache →
      Learns s.library (readings caller [raw]) m.cache (step raw m))
    (hstep : ∀ raw ∈ raws, ∀ m, Closed s.library m.cache →
      Explores s (readings caller [raw]) room m.cache (step raw m))
    (hm : Closed s.library m.cache) :
    Explores s (readings caller raws) room m.cache (visit step raws m) := by
  induction raws generalizing m with
  | nil =>
    refine ⟨fun before t after h => absurd h (by simp [readings]), fun u => ?_⟩
    rw [readings, List.filterMap_nil, met_nil]
  | cons raw rest ih =>
    obtain ⟨hp, hprest⟩ := List.forall_mem_cons.1 hparse
    obtain ⟨hs, hsrest⟩ := List.forall_mem_cons.1 hstep
    obtain ⟨t, ht⟩ := hp
    have hfirst := hs m hm
    have hkeep := (hlearn raw m hm).closed
    rw [readings_singleton ht] at hfirst
    rw [readings_cons ht, visit]
    rcases hr : step raw m with ⟨fault | c, m'⟩
    · rw [hr] at hfirst
      exact hfirst.cons_error
    · rw [hr] at hfirst hkeep
      exact hfirst.cons (ih hprest hsrest hkeep)

theorem remembers_insert {content : Section} {u : Reference} (hr : IsPlain r.document) :
    Remembers (cache.insert r.key content) u ↔ u = r ∨ Remembers cache u := by
  rw [Remembers, contains_insert, Remembers]
  constructor
  · rintro ⟨hu, hkey | hkey⟩
    · exact Or.inl (Reference.eq_of_key_eq hu hr hkey)
    · exact Or.inr ⟨hu, hkey⟩
  · rintro (rfl | ⟨hu, hkey⟩)
    · exact ⟨hr, Or.inl rfl⟩
    · exact ⟨hu, Or.inr hkey⟩

theorem remembers_of_get? {content : Section} (hr : IsPlain r.document)
    (h : cache.get? r.key = some content) : Remembers cache r :=
  ⟨hr, Option.isSome_iff_exists.2 ⟨content, h⟩⟩

theorem not_remembers_of_get? (h : cache.get? r.key = none) : ¬ Remembers cache r :=
  fun hr => absurd hr.2 (by simp [Catalog.contains, h])

/-- On an acyclic graph a reference is not under way when the chain leads to it. -/
theorem not_mem_of_trail (hacyclic : ∀ r, ¬ TransGen (Inherits l) r r) (hr : IsPlain r.document)
    (h : Trail l chain r) : r.key ∉ chain := by
  intro hmem
  obtain ⟨u, hkey, hu, hlead⟩ := h _ hmem
  obtain rfl := Reference.eq_of_key_eq hu hr hkey
  exact hacyclic u hlead

/-- A reference that is remembered is not explored. -/
theorem explores_of_remembered {α : Type} {room : Nat} {v : α} {m' : Memory}
    (hlib : ∀ name ∈ s.library.names, IsPlain name) (hm : Closed s.library cache)
    (hr : Remembers cache r) (hcache : m'.cache = cache) :
    Explores s [r] room cache (.ok v, m') := by
  refine explores_singleton_ok (fun ⟨_, h, _⟩ => h.not_known hr) fun u => ?_
  rw [hcache, Met, reachedFrom_singleton]
  exact ⟨Or.inl, fun h => h.elim id (hm.remembers_of_reaches hlib hr)⟩

/-- Exploring a reference is exploring the references that its section names, one deeper. -/
theorem explores_record {room : Nat} {answer : Except Fault Section × Memory}
    (hr : IsPlain r.document) (hnew : ¬ Remembers cache r)
    (h : Explores s (named s.library r) room cache answer) :
    Explores s [r] (room + 1) cache (record r answer) := by
  rcases answer with ⟨fault | v, m'⟩
  · obtain ⟨⟨key, rfl⟩, before, t, after, hsplit, hdeep⟩ := h
    exact explores_singleton_error (deep_succ_iff.2 ⟨hnew, before, t, after, hsplit, hdeep⟩)
  · obtain ⟨hrooms, hmet⟩ := h
    refine explores_singleton_ok (fun hdeep => ?_) fun u => ?_
    · obtain ⟨-, before, t, after, hsplit, ht⟩ := deep_succ_iff.1 hdeep
      exact hrooms before t after hsplit ht
    · rw [remembers_insert hr, hmet, Met, Met, reachedFrom_singleton, reaches_iff, or_left_comm]

/-- On a sound and acyclic library resolving a reference fails exactly at the depth fault, and that
exactly when a chain begins at it that is unexplored and longer than the room allows. -/
theorem explores_referWithin (htemplates : s.templates = none)
    (hlib : ∀ name ∈ s.library.names, IsPlain name)
    (hsound : ∀ r ∈ places s.library, ¬ LocalDefect s r)
    (hacyclic : ∀ r, ¬ TransGen (Inherits s.library) r r) (room : Nat)
    (hparse : Reference.parse raw caller = .ok r) (hr : IsPlain r.document)
    (hplace : r ∈ places s.library) (htrail : Trail s.library chain r)
    (hm : Closed s.library m.cache) :
    Explores s [r] room m.cache (referWithin s room caller chain raw m) := by
  induction room using Nat.strongRecOn generalizing caller chain raw r m with
  | _ room ih =>
    cases hc : m.cache.get? r.key with
    | some content =>
      rw [referWithin_of_remembered hparse hc]
      exact explores_of_remembered hlib hm (remembers_of_get? hr hc) rfl
    | none =>
      have hnew : ¬ Remembers m.cache r := not_remembers_of_get? hc
      have hfresh := not_mem_of_trail hacyclic hr htrail
      cases room with
      | zero =>
        rw [referWithin_zero hparse hc hfresh]
        exact explores_singleton_error (deep_zero_iff.2 hnew)
      | succ room =>
        obtain ⟨content, hcontent⟩ := mem_places_iff.1 hplace
        have hwell := (not_defective_iff.1 fun hd => hsound r hplace ⟨content, hcontent, hd⟩).1
        obtain ⟨m', hcache, hanswer⟩ := referWithin_succ (s := s) hparse hc hfresh room
        rw [← hcache] at hm hnew ⊢
        rw [hanswer, seek_eq_ok_iff.2 hcontent, htemplates]
        refine explores_record hr hnew (explores_of_dropValue ?_)
        rw [dropValue_assemble, named_of_target hcontent]
        refine explores_visit (fun raw' hraw' => ?_)
          (fun raw' m' => learns_referWithin htemplates room _ _ raw' m')
          (fun raw' hraw' m' hm' => ?_) hm
        · obtain ⟨t, ht, -⟩ := hwell raw' hraw'
          exact ⟨t, ht⟩
        · obtain ⟨t, ht, c, hct⟩ := hwell raw' hraw'
          have hs : Inherits s.library r t := ⟨content, hcontent, raw', hraw', ht⟩
          rw [readings_singleton ht]
          exact ih room (Nat.lt_succ_self room) ht (isPlain_of_inherits hr hs)
            (mem_places_iff.2 ⟨c, hct⟩) (trail_extend hr htrail hs) hm'

theorem Explores.isTooDeep_iff {α : Type} {room : Nat} {answer : Except Fault α × Memory}
    (h : Explores s [r] room cache answer) :
    (∃ key, answer.1 = .error (.tooDeep key s.maxDepth)) ↔
      Deep s.library (Remembers cache) r room := by
  rcases answer with ⟨fault | v, m'⟩
  · obtain ⟨⟨key, rfl⟩, before, t, after, hsplit, hdeep⟩ := h
    obtain ⟨rfl, rfl, -⟩ := eq_of_singleton_eq_append hsplit
    rw [met_nil] at hdeep
    exact ⟨fun _ => hdeep, fun _ => ⟨key, rfl⟩⟩
  · have hdeep := h.1 [] r [] rfl
    rw [met_nil] at hdeep
    simp [hdeep]

theorem isTooDeep_iff_of_absent (hlib : ∀ name ∈ s.library.names, IsPlain name) (room : Nat)
    (hm : Closed s.library m.cache) (hparse : Reference.parse raw caller = .ok r)
    (hr : IsPlain r.document) (hplace : r ∉ places s.library) :
    (∃ key, (referWithin s room caller [] raw m).1 = .error (.tooDeep key s.maxDepth)) ↔
      Deep s.library (Remembers m.cache) r room := by
  have hnew : m.cache.get? r.key = none := by
    by_contra hc
    obtain ⟨p, hp, hkey, -⟩ := hm r.key (Option.isSome_iff_ne_none.2 hc)
    obtain rfl := Reference.eq_of_key_eq (isPlain_of_mem_places hlib hp) hr hkey
    exact hplace hp
  have htarget : target? s.library r = none := by
    by_contra hc
    exact hplace (mem_places_iff.2 (Option.ne_none_iff_exists'.1 hc))
  cases room with
  | zero =>
    rw [referWithin_zero hparse hnew List.not_mem_nil, deep_zero_iff]
    exact ⟨fun _ => not_remembers_of_get? hnew, fun _ => ⟨r.key, rfl⟩⟩
  | succ room =>
    obtain ⟨m', -, hanswer⟩ := referWithin_succ (s := s) hparse hnew List.not_mem_nil room
    have hshallow : ¬ Deep s.library (Remembers m.cache) r (room + 1) := by
      rw [deep_succ_iff, named, htarget]
      simp
    rw [hanswer]
    cases hs : Direct.seek s.library r with
    | error fault =>
      refine iff_of_false ?_ hshallow
      rintro ⟨key, hkey⟩
      obtain rfl := Except.error.inj hkey
      exact absurd (Direct.seek_not_tooDeep hs) (by simp [Fault.isTooDeep])
    | ok content => exact absurd (seek_eq_ok_iff.1 hs) (by simp [htarget])

/-- A reference that stands in no document fails at the depth fault exactly when an unexplored
chain longer than the cap begins at it. -/
theorem isTooDeep_refer_iff (htemplates : s.templates = none)
    (hlib : ∀ name ∈ s.library.names, IsPlain name)
    (hsound : ∀ r ∈ places s.library, ¬ LocalDefect s r)
    (hacyclic : ∀ r, ¬ TransGen (Inherits s.library) r r) (hm : Closed s.library m.cache)
    (hparse : Reference.parse raw none = .ok r) :
    (∃ key, (refer s none [] raw m).1 = .error (.tooDeep key s.maxDepth)) ↔
      Deep s.library (Remembers m.cache) r s.maxDepth := by
  have hr : IsPlain r.document :=
    Reference.isPlain_of_parse (fun _ h => absurd h (Option.not_mem_none _)) hparse
  by_cases hplace : r ∈ places s.library
  · exact (explores_referWithin htemplates hlib hsound hacyclic s.maxDepth hparse hr hplace
      (trail_nil r) hm).isTooDeep_iff
  · exact isTooDeep_iff_of_absent hlib s.maxDepth hm hparse hr hplace

end Resolution

namespace Session

open Inheritance Relation
open Resolution (Memory Remembers Closed)

/-- After a session a reference in no document fails at the depth fault. -/
def IsTooDeep (s : Sources) (ops : List Operation) (raw : String) : Prop :=
  ∃ key, (Resolution.refer s none [] raw (run s ops ∅).2).1 = .error (.tooDeep key s.maxDepth)

theorem not_isTooDeep_of_isOk {s : Sources} {ops : List Operation} {raw : String}
    (h : (Resolution.refer s none [] raw (run s ops ∅).2).1.isOk = true) :
    ¬ IsTooDeep s ops raw := by
  rintro ⟨key, hkey⟩
  rw [hkey] at h
  exact Bool.false_ne_true h

/-- A chain of references with more members than the cap allows begins at a reference in no
document. -/
def HasLongChain (s : Sources) (raw : String) : Prop :=
  ∃ r rest, Reference.parse raw none = .ok r ∧ (r :: rest).IsChain (Inherits s.library) ∧
    s.maxDepth < (r :: rest).length

theorem closed_answer {s : Sources} (htemplates : s.templates = none) (c : Call) (m : Memory)
    (hm : Closed s.library m.cache) : Closed s.library (c.answer s m).2.cache :=
  answer_keeps (P := fun m => Closed s.library m.cache)
    (fun _ raw m hm => (Resolution.learns_referWithin htemplates _ _ _ raw m hm).closed) c hm

/-- The depth fault measures the chains on which everything is new. Take a library of plainly named
documents whose references can all be read and followed, without a cycle and without templates, and
a session that has come to some memory. A reference in no document then fails at the depth fault
exactly when a chain with more members than the cap allows begins at its section, none of them
remembered and none reached from what stands before the chain in its sections. So a chain that is
too long in the graph is needed, but it is not enough. -/
theorem isTooDeep_iff_exists_unexplored (s : Sources)
    (hlib : ∀ name ∈ s.library.names, IsPlain name) (htemplates : s.templates = none)
    (hsound : ∀ r ∈ places s.library, ¬ LocalDefect s r)
    (hacyclic : ∀ r, ¬ TransGen (Inherits s.library) r r) (ops : List Operation) (raw : String) :
    (IsTooDeep s ops raw ↔ ∃ r rest, Reference.parse raw none = .ok r ∧
      Unexplored s.library (Remembers (run s ops ∅).2.cache) (r :: rest) ∧
      s.maxDepth < (r :: rest).length) ∧
    (IsTooDeep s ops raw → HasLongChain s raw) := by
  have hm : Closed s.library (run s ops ∅).2.cache :=
    run_keeps (P := fun m => Closed s.library m.cache) (closed_answer htemplates) ops
      (Resolution.closed_empty s.library)
  have hiff : IsTooDeep s ops raw ↔ ∃ r rest, Reference.parse raw none = .ok r ∧
      Unexplored s.library (Remembers (run s ops ∅).2.cache) (r :: rest) ∧
      s.maxDepth < (r :: rest).length := by
    unfold IsTooDeep
    cases hparse : Reference.parse raw none with
    | error fault =>
      rw [Resolution.refer, Resolution.referWithin_of_error hparse]
      simp
    | ok r =>
      rw [Resolution.isTooDeep_refer_iff htemplates hlib hsound hacyclic hm hparse, Deep]
      simp
  refine ⟨hiff, fun h => ?_⟩
  obtain ⟨r, rest, hparse, hchain, hlong⟩ := hiff.1 h
  exact ⟨r, rest, hparse, hchain.isChain, hlong⟩

def stair : Library :=
  Catalog.ofList [("stair", Keyed.ofList [
    ("Ground", ⟨[("Height", .scalar "0")]⟩),
    ("First", ⟨[("@Inherits", .scalar "this:Ground"), ("Height", .scalar "3")]⟩),
    ("Second", ⟨[("@Inherits", .scalar "this:First"), ("Height", .scalar "6")]⟩),
    ("Lift", ⟨[("@Inherits", .list ["this:Ground", "this:First"])]⟩)])]

theorem sound_stair : ∀ r ∈ places stair, ¬ LocalDefect ⟨stair, none, 2⟩ r := by
  have hfound : ∀ r ∈ places stair, ∀ content ∈ target? stair r, ∀ raw ∈ content.references,
      ∃ t ∈ (Reference.parse raw (some r.document)).toOption, (target? stair t).isSome := by
    decide +kernel
  rintro r hr ⟨content, hcontent, hdefect⟩
  refine not_defective_iff.2 ⟨fun raw hraw => ?_, fun store h => absurd h (by simp)⟩ hdefect
  obtain ⟨t, ht, hsome⟩ := hfound r hr content hcontent raw hraw
  refine ⟨t, ?_, Option.isSome_iff_exists.1 hsome⟩
  cases hp : Reference.parse raw (some r.document) with
  | error fault => simp [hp, Except.toOption] at ht
  | ok t' => simpa [hp, Except.toOption] using ht

theorem acyclic_stair (r : Reference) : ¬ TransGen (Inherits stair) r r := by
  let floor (r : Reference) : Nat :=
    if r.heading = "Ground" then 0 else if r.heading = "First" then 1 else 2
  have hdown : ∀ r ∈ places stair, ∀ t ∈ named stair r, floor t < floor r := by decide +kernel
  exact not_transGen_self_of_rank hdown r

theorem chain_stair :
    [(⟨"stair", "First"⟩ : Reference), ⟨"stair", "Ground"⟩].IsChain (Inherits stair) := by
  have h : ⟨"stair", "Ground"⟩ ∈ named stair ⟨"stair", "First"⟩ := by decide +kernel
  exact .cons_cons (mem_named_iff.1 h) (.singleton _)

theorem isTooDeep_iff_exists_unexplored_stair :
    let s : Sources := ⟨stair, none, 2⟩
    let ops := [.call (.reference "stair:Ground")]
    (∀ name ∈ s.library.names, IsPlain name) ∧ s.templates = none ∧
      (∀ r ∈ places s.library, ¬ LocalDefect s r) ∧
      (∀ r, ¬ TransGen (Inherits s.library) r r) ∧
      (IsTooDeep s ops "stair:Second" ↔ ∃ r rest, Reference.parse "stair:Second" none = .ok r ∧
        Unexplored s.library (Remembers (run s ops ∅).2.cache) (r :: rest) ∧
        s.maxDepth < (r :: rest).length) ∧
      (IsTooDeep s ops "stair:Second" → HasLongChain s "stair:Second") := by
  have hlib : ∀ name ∈ stair.names, IsPlain name := by decide
  exact ⟨hlib, rfl, sound_stair, acyclic_stair, isTooDeep_iff_exists_unexplored
    ⟨stair, none, 2⟩ hlib rfl sound_stair acyclic_stair [.call (.reference "stair:Ground")]
    "stair:Second"⟩

/-- The depth fault does not measure the graph. A chain of three does not fail under a cap of two
when the end of it was asked for before, or when the end stands before the rest of it among the
references of a section. -/
theorem long_chain_not_too_deep :
    let s : Sources := ⟨stair, none, 2⟩
    (∀ name ∈ s.library.names, IsPlain name) ∧ s.templates = none ∧
      (∀ r ∈ places s.library, ¬ LocalDefect s r) ∧
      (∀ r, ¬ TransGen (Inherits s.library) r r) ∧
      ¬ (IsTooDeep s [.call (.reference "stair:Ground")] "stair:Second" ↔
        HasLongChain s "stair:Second") ∧
      ¬ (IsTooDeep s [] "stair:Lift" ↔ HasLongChain s "stair:Lift") := by
  have hlib : ∀ name ∈ stair.names, IsPlain name := by decide
  have hstep (heading : String) (h : ⟨"stair", "First"⟩ ∈ named stair ⟨"stair", heading⟩) :
      [⟨"stair", heading⟩, ⟨"stair", "First"⟩, ⟨"stair", "Ground"⟩].IsChain (Inherits stair) :=
    .cons_cons (mem_named_iff.1 h) chain_stair
  have hsecond : HasLongChain ⟨stair, none, 2⟩ "stair:Second" :=
    ⟨_, _, rfl, hstep "Second" (by decide +kernel), by decide⟩
  have hlift : HasLongChain ⟨stair, none, 2⟩ "stair:Lift" :=
    ⟨_, _, rfl, hstep "Lift" (by decide +kernel), by decide⟩
  refine ⟨hlib, rfl, sound_stair, acyclic_stair, fun h => ?_, fun h => ?_⟩
  · exact not_isTooDeep_of_isOk (by decide +kernel) (h.2 hsecond)
  · exact not_isTooDeep_of_isOk (by decide +kernel) (h.2 hlift)

end Session

end SectionCompiler
