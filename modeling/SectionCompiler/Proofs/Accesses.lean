import Mathlib.Data.List.Perm.Subperm
import SectionCompiler.Proofs.Learning
import SectionCompiler.Proofs.Session

/-! What a call for a reference does to the cache and the library, access by access. A call fetches
its key first. On a hit it ends there; on a miss it may look up the section, go through the calls
that the section makes, and then store the key, which none of them can have stored: it is on their
chain. So a log is a run of whole calls, one inside another, and a key is stored once in it. -/

namespace SectionCompiler.Resolution

open Inheritance Direct

/-- The accesses of a call for the reference `r` (at `some r`), or of calls one after another (at
`none`), with the cache before and after them. -/
inductive Trace (l : Library) :
    Option Reference → Catalog Section → List Access → Catalog Section → Prop where
  | nil {a : Catalog Section} : Trace l none a [] a
  | cons {a b c : Catalog Section} {r : Reference} {first rest : List Access} :
      Trace l (some r) a first b → Trace l none b rest c → Trace l none a (first ++ rest) c
  | hit {a : Catalog Section} {r : Reference} {content : Section} :
      a.get? r.key = some content → Trace l (some r) a [.fetch r.key true] a
  /-- The reference is on the chain, or the chain is too long. -/
  | refused {a : Catalog Section} {r : Reference} :
      a.get? r.key = none → Trace l (some r) a [.fetch r.key false] a
  | lacking {a : Catalog Section} {r : Reference} :
      a.get? r.key = none → r ∉ places l →
      Trace l (some r) a
        [.fetch r.key false, .look r.document (l.get? r.document).isSome] a
  | failed {a b : Catalog Section} {r : Reference} {inner : List Access} :
      a.get? r.key = none → r ∈ places l → Trace l none a inner b →
      Trace l (some r) a (.fetch r.key false :: .look r.document true :: inner) b
  | settled {a b : Catalog Section} {r : Reference} {inner : List Access} (content : Section) :
      a.get? r.key = none → r ∈ places l → Trace l none a inner b → b.get? r.key = none →
      Trace l (some r) a (.fetch r.key false :: .look r.document true :: (inner ++ [.store r.key]))
        (b.insert r.key content)

abbrev IsCall (l : Library) (r : Reference) := Trace l (some r)

abbrev AreCalls (l : Library) := Trace l none

def stored (log : List Access) : List String :=
  log.filterMap fun
    | .store key => some key
    | _ => none

@[simp] theorem stored_nil : stored [] = [] := rfl

@[simp] theorem stored_fetch (key : String) (hit : Bool) (log : List Access) :
    stored (.fetch key hit :: log) = stored log := rfl

@[simp] theorem stored_look (name : String) (found : Bool) (log : List Access) :
    stored (.look name found :: log) = stored log := rfl

@[simp] theorem stored_store (key : String) (log : List Access) :
    stored (.store key :: log) = key :: stored log := rfl

@[simp] theorem stored_append (log log' : List Access) :
    stored (log ++ log') = stored log ++ stored log' :=
  List.filterMap_append

variable {l : Library} {call : Option Reference} {a b : Catalog Section} {log : List Access}
  {key : String}

/-- One call stores the key, once and as its last access. It began by missing the key, and after it
the key is hit whenever it is fetched. -/
def StoredOnce (l : Library) (log : List Access) (key : String) : Prop :=
  ∃ (r : Reference) (earlier inner later : List Access) (a b : Catalog Section),
    r.key = key ∧
    log = earlier ++ .fetch key false :: .look r.document true :: (inner ++ .store key :: later) ∧
    IsCall l r a (.fetch key false :: .look r.document true :: (inner ++ [.store key])) b ∧
    key ∉ stored (earlier ++ inner ++ later) ∧
    ∀ hit, .fetch key hit ∈ later → hit = true

theorem StoredOnce.append_left (h : StoredOnce l log key) (log' : List Access)
    (hfresh : key ∉ stored log') : StoredOnce l (log' ++ log) key := by
  obtain ⟨r, earlier, inner, later, a, b, hr, rfl, hcall, hother, hlater⟩ := h
  refine ⟨r, log' ++ earlier, inner, later, a, b, hr, by simp, hcall, ?_, hlater⟩
  simpa [hfresh] using hother

theorem StoredOnce.append_right (h : StoredOnce l log key) {log' : List Access}
    (hfresh : key ∉ stored log') (hhits : ∀ hit, .fetch key hit ∈ log' → hit = true) :
    StoredOnce l (log ++ log') key := by
  obtain ⟨r, earlier, inner, later, a, b, hr, rfl, hcall, hother, hlater⟩ := h
  refine ⟨r, earlier, inner, later ++ log', a, b, hr, by simp, hcall, ?_, fun hit hmem => ?_⟩
  · simpa [hfresh] using hother
  · exact (List.mem_append.1 hmem).elim (hlater hit) (hhits hit)

theorem ne_of_contains {key' : String} (h : a.contains key = true) (h' : a.get? key' = none) :
    key ≠ key' := by
  rintro rfl
  simp [Catalog.contains, h'] at h

namespace Trace

theorem single {r : Reference} (h : IsCall l r a log b) : AreCalls l a log b :=
  List.append_nil log ▸ .cons h .nil

theorem append {c : Catalog Section} {log' : List Access} (h : Trace l none a log b)
    (h' : AreCalls l b log' c) : AreCalls l a (log ++ log') c := by
  generalize hnone : none = call at h
  induction h with
  | nil => exact h'
  | cons hfirst _ _ ih =>
    rw [List.append_assoc]
    exact .cons hfirst (ih h' hnone)
  | hit | refused | lacking | failed | settled => cases hnone

/-- No entry is changed or removed. -/
theorem get?_eq (h : Trace l call a log b) {content : Section}
    (hkey : a.get? key = some content) : b.get? key = some content := by
  induction h with
  | nil | hit | refused | lacking => exact hkey
  | cons _ _ ih ih' => exact ih' (ih hkey)
  | failed _ _ _ ih => exact ih hkey
  | settled _ _ _ _ hfresh ih =>
    have hinner := ih hkey
    have hne := ne_of_contains (Option.isSome_iff_exists.2 ⟨content, hinner⟩) hfresh
    rw [Catalog.get?_insert, if_neg hne, hinner]

/-- The cache holds afterwards what it held before and what has been stored. -/
theorem contains_iff (h : Trace l call a log b) (key : String) :
    b.contains key = true ↔ a.contains key = true ∨ key ∈ stored log := by
  induction h with
  | nil | hit | refused | lacking => simp
  | cons _ _ ih ih' => rw [ih', ih, stored_append, List.mem_append, or_assoc]
  | failed _ _ _ ih => simpa using ih
  | settled _ _ _ _ _ ih =>
    rw [contains_insert, ih]
    simp [or_comm, or_left_comm]

theorem contains_of_stored (h : Trace l call a log b) (hkey : key ∈ stored log) :
    b.contains key = true :=
  (h.contains_iff key).2 (Or.inr hkey)

theorem not_mem_stored (h : Trace l call a log b) (hkey : a.contains key = true) :
    key ∉ stored log := by
  induction h with
  | nil | hit | refused | lacking => simp
  | cons hfirst _ ih ih' =>
    simpa using ⟨ih hkey, ih' ((hfirst.contains_iff key).2 (Or.inl hkey))⟩
  | failed _ _ _ ih => simpa using ih hkey
  | settled _ hmiss _ _ _ ih =>
    simpa [ne_of_contains hkey hmiss] using ih hkey

theorem not_mem_stored_of_miss (h : Trace l call a log b) (hkey : b.get? key = none) :
    key ∉ stored log :=
  fun hmem => ne_of_contains (h.contains_of_stored hmem) hkey rfl

theorem hit_of_contains (h : Trace l call a log b) (hkey : a.contains key = true) {found : Bool}
    (hmem : .fetch key found ∈ log) : found = true := by
  induction h with
  | nil => simp at hmem
  | hit _ => simp_all
  | refused hmiss => simp [ne_of_contains hkey hmiss] at hmem
  | lacking hmiss _ => simp [ne_of_contains hkey hmiss] at hmem
  | cons hfirst _ ih ih' =>
    rcases List.mem_append.1 hmem with hmem | hmem
    · exact ih hkey hmem
    · exact ih' ((hfirst.contains_iff key).2 (Or.inl hkey)) hmem
  | failed hmiss _ _ ih => exact ih hkey (by simpa [ne_of_contains hkey hmiss] using hmem)
  | settled _ hmiss _ _ _ ih => exact ih hkey (by simpa [ne_of_contains hkey hmiss] using hmem)

theorem stored_subset (h : Trace l call a log b) :
    stored log ⊆ (places l).map Reference.key := by
  induction h with
  | nil | hit | refused | lacking => exact List.nil_subset _
  | cons _ _ ih ih' =>
    rw [stored_append]
    exact List.append_subset.2 ⟨ih, ih'⟩
  | failed _ _ _ ih => exact ih
  | settled _ _ hplace _ _ ih =>
    simp only [stored_fetch, stored_look, stored_append, stored_store, stored_nil]
    refine List.append_subset.2 ⟨ih, List.cons_subset.2 ⟨?_, List.nil_subset _⟩⟩
    exact List.mem_map_of_mem hplace

theorem nodup_stored (h : Trace l call a log b) : (stored log).Nodup := by
  induction h with
  | nil | hit | refused | lacking => exact List.nodup_nil
  | cons hfirst hrest ih ih' =>
    rw [stored_append]
    refine List.nodup_append.2 ⟨ih, ih', fun key hkey key' hkey' he => ?_⟩
    exact hrest.not_mem_stored (hfirst.contains_of_stored hkey) (he ▸ hkey')
  | failed _ _ _ ih => exact ih
  | settled _ _ _ hinner hfresh ih =>
    have hnew := hinner.not_mem_stored_of_miss hfresh
    simp only [stored_fetch, stored_look, stored_append, stored_store, stored_nil]
    exact List.nodup_append.2 ⟨ih, by simp, fun key hkey key' hkey' he =>
      hnew (List.mem_singleton.1 hkey' ▸ he ▸ hkey)⟩

theorem storedOnce (h : Trace l call a log b) (hkey : key ∈ stored log) :
    StoredOnce l log key := by
  induction h with
  | nil | hit | refused | lacking => simp at hkey
  | cons hfirst hrest ih ih' =>
    rw [stored_append, List.mem_append] at hkey
    rcases hkey with hkey | hkey
    · have hheld := hfirst.contains_of_stored hkey
      exact (ih hkey).append_right (hrest.not_mem_stored hheld) fun _ => hrest.hit_of_contains hheld
    · exact (ih' hkey).append_left _ fun hmem =>
        hrest.not_mem_stored (hfirst.contains_of_stored hmem) hkey
  | @failed a b r inner _ _ _ ih =>
    exact (ih hkey).append_left [.fetch r.key false, .look r.document true] (by simp)
  | @settled a b r inner content hmiss hplace hinner hfresh ih =>
    have hnew := hinner.not_mem_stored_of_miss hfresh
    by_cases he : key = r.key
    · subst he
      exact ⟨r, [], inner, [], a, _, rfl, rfl, .settled content hmiss hplace hinner hfresh,
        by simpa using hnew, by simp⟩
    · have hinside := ih (by simpa [he] using hkey)
      refine (hinside.append_right ?_ ?_).append_left
        [.fetch r.key false, .look r.document true] (by simp)
      · simpa using he
      · simp

theorem length_stored_le (h : Trace l call a log b) :
    (stored log).length ≤ (places l).length := by
  have hsub := h.nodup_stored.subperm h.stored_subset
  simpa using hsub.length_le

end Trace

/-- One memory comes from another by whole calls, which the log tells, and none of them stores a key
of the chain. -/
structure Steps (l : Library) (chain : Chain) (call : Option Reference) (m m' : Memory) :
    Prop where
  traced : ∃ trace, m'.log = m.log ++ trace ∧ Trace l call m.cache trace m'.cache
  spares : ∀ key ∈ chain, m.cache.get? key = none → m'.cache.get? key = none

variable {chain : Chain}

theorem Steps.refl (m : Memory) : Steps l chain none m m :=
  ⟨⟨[], (List.append_nil _).symm, .nil⟩, fun _ _ h => h⟩

theorem Steps.trans {m m' m'' : Memory} (h : Steps l chain none m m')
    (h' : Steps l chain none m' m'') : Steps l chain none m m'' := by
  obtain ⟨trace, hlog, htrace⟩ := h.traced
  obtain ⟨trace', hlog', htrace'⟩ := h'.traced
  refine ⟨⟨trace ++ trace', ?_, htrace.append htrace'⟩, fun key hkey hmiss => ?_⟩
  · rw [hlog', hlog, List.append_assoc]
  · exact h'.spares key hkey (h.spares key hkey hmiss)

theorem Steps.single {r : Reference} {m m' : Memory} (h : Steps l chain (some r) m m') :
    Steps l chain none m m' := by
  obtain ⟨trace, hlog, htrace⟩ := h.traced
  exact ⟨⟨trace, hlog, htrace.single⟩, h.spares⟩

variable {s : Sources} {caller : Option String} {raw : String} {r : Reference} {m : Memory}

/-- When the calls of a section spare the key of its reference, the call for the reference is whole,
whether the section can be put together or not. -/
theorem steps_record {answer : Except Fault Section × Memory} (hmiss : m.cache.get? r.key = none)
    (hplace : r ∈ places l) (hchain : r.key ∉ chain)
    (h : Steps l (chain.extend r.key) none (m.asked l r) answer.2) :
    Steps l chain (some r) m (record r answer).2 := by
  have hfound : (l.get? r.document).isSome = true := by
    obtain ⟨content, hcontent⟩ := mem_places_iff.1 hplace
    obtain ⟨document, hdocument, -⟩ := Option.bind_eq_some_iff.1 hcontent
    rw [hdocument, Option.isSome_some]
  obtain ⟨inner, hlog, htrace⟩ := h.traced
  have hfresh := h.spares r.key (by simp [Chain.extend]) hmiss
  have hspares : ∀ key ∈ chain, m.cache.get? key = none → answer.2.cache.get? key = none :=
    fun key hkey => h.spares key (by simp [Chain.extend, hkey])
  simp only [Memory.asked, hfound, List.append_assoc, List.cons_append, List.nil_append] at hlog
  rcases answer with ⟨fault | content, m'⟩
  · exact ⟨⟨_, hlog, .failed hmiss hplace htrace⟩, hspares⟩
  · refine ⟨⟨_, ?_, .settled content hmiss hplace htrace hfresh⟩, fun key hkey hk => ?_⟩
    · rw [record, hlog]
      simp
    · have hne : key ≠ r.key := fun he => hchain (he ▸ hkey)
      rw [record, Catalog.get?_insert, if_neg hne]
      exact hspares key hkey hk

/-- Resolving a reference is one whole call, wherever it happens. -/
theorem steps_referWithin (room : Nat) (chain : Chain) (h : Reference.parse raw caller = .ok r)
    (m : Memory) : Steps s.library chain (some r) m (referWithin s room caller chain raw m).2 := by
  induction room using Nat.strongRecOn generalizing caller chain raw r m with
  | _ room ih =>
    cases hc : m.cache.get? r.key with
    | some content =>
      rw [referWithin_of_remembered h hc]
      exact ⟨⟨_, rfl, .hit hc⟩, fun _ _ h => h⟩
    | none =>
      by_cases hchain : r.key ∈ chain
      · rw [referWithin_of_mem_chain h hc hchain]
        exact ⟨⟨_, rfl, .refused hc⟩, fun _ _ h => h⟩
      · cases room with
        | zero =>
          rw [referWithin_zero h hc hchain]
          exact ⟨⟨_, rfl, .refused hc⟩, fun _ _ h => h⟩
        | succ room =>
          rw [referWithin_asked h hc hchain]
          cases hs : Direct.seek s.library r with
          | error fault =>
            have hplace : r ∉ places s.library := fun hmem => by
              obtain ⟨content, hcontent⟩ := mem_places_iff.1 hmem
              rw [seek_eq_ok_iff.2 hcontent] at hs
              cases hs
            exact ⟨⟨_, rfl, .lacking hc hplace⟩, fun _ _ h => h⟩
          | ok content =>
            have hplace := mem_places_iff.2 ⟨content, seek_eq_ok_iff.1 hs⟩
            refine steps_record hc hplace hchain ?_
            -- the calls of the section are made under a chain that holds the key
            refine keeps_assemble (P := Steps s.library (chain.extend r.key) none _)
              (fun raw' m' hm' => ?_) (Steps.refl _)
            cases hp : Reference.parse raw' (some r.document) with
            | error fault =>
              rw [referWithin_of_error hp]
              exact hm'
            | ok t => exact hm'.trans (ih room (Nat.lt_succ_self room) _ hp m').single

theorem Steps.refer {m₀ : Memory} (h : Steps s.library [] none m₀ m) (caller : Option String)
    (raw : String) : Steps s.library [] none m₀ (refer s caller [] raw m).2 := by
  cases hp : Reference.parse raw caller with
  | error fault =>
    rw [Resolution.refer, referWithin_of_error hp]
    exact h
  | ok r => exact h.trans (steps_referWithin _ _ hp m).single

theorem Steps.resolve {m₀ : Memory} (h : Steps s.library [] none m₀ m) (caller : Option String)
    (content : Section) : Steps s.library [] none m₀ (resolve s caller [] content m).2 :=
  keeps_assemble (P := Steps s.library [] none m₀) (fun raw _ hm => hm.refer caller raw) h

/-- A request to what keeps one memory: an operation of a session, or a question to a resolver,
which takes any caller. -/
inductive Request where
  | operation (op : Session.Operation)
  | passage (caller : Option String) (content : Section)
  | reference (caller : Option String) (raw : String)
  deriving DecidableEq, Repr

/-- The memory after a request, also when it fails. -/
def Request.serve (s : Sources) : Request → Memory → Memory
  | operation op, m => (op.run s m).2
  | passage caller content, m => (resolve s caller [] content m).2
  | reference caller raw, m => (refer s caller [] raw m).2

def serve (s : Sources) : List Request → Memory → Memory
  | [], m => m
  | request :: rest, m => serve s rest (request.serve s m)

theorem Steps.operation {m₀ : Memory} (h : Steps s.library [] none m₀ m)
    (op : Session.Operation) : Steps s.library [] none m₀ (op.run s m).2 :=
  Session.run_keeps (P := Steps s.library [] none m₀)
    (fun c _ hm => Session.answer_keeps (fun caller raw _ hm => hm.refer caller raw) c hm) [op] h

theorem Steps.serve {m₀ : Memory} (h : Steps s.library [] none m₀ m) (requests : List Request) :
    Steps s.library [] none m₀ (serve s requests m) := by
  induction requests generalizing m with
  | nil => exact h
  | cons request rest ih =>
    refine ih ?_
    cases request with
    | operation op => exact h.operation op
    | passage caller content => exact h.resolve caller content
    | reference caller raw => exact h.refer caller raw

/-- Each reference is resolved once. However requests are served from the empty memory, their log is
a run of whole calls; the keys in the cache are those that have been stored, each once, by a call
that began by missing it; so there are no more of them than sections in the library. From then on,
at the end of a request or between the calls inside one, what is in the cache stays there, and
whoever refers to it, in whatever document and under whatever chain, is answered from it and leaves
nothing but a hit in the log. Every call is whole in this sense, from whatever memory it is made. -/
theorem resolves_once (s : Sources) (requests later : List Request) :
    let m := serve s requests ∅
    let m' := serve s later m
    AreCalls s.library ∅ m.log m.cache ∧
    (∀ key, m.cache.contains key = true ↔ key ∈ stored m.log) ∧
    (stored m.log).Nodup ∧
    (∀ key ∈ stored m.log, StoredOnce s.library m.log key) ∧
    (stored m.log).length ≤ (places s.library).length ∧
    (∃ calls, m'.log = m.log ++ calls ∧ AreCalls s.library m.cache calls m'.cache) ∧
    (∀ key content, m.cache.get? key = some content →
      ∀ m'' calls, AreCalls s.library m.cache calls m''.cache →
        m''.cache.get? key = some content ∧
        ∀ room caller chain raw r, Reference.parse raw caller = .ok r → r.key = key →
          referWithin s room caller chain raw m'' =
            (.ok content, { m'' with log := m''.log ++ [.fetch key true] })) ∧
    ∀ room caller chain raw r, Reference.parse raw caller = .ok r → ∀ m,
      ∃ call, (referWithin s room caller chain raw m).2.log = m.log ++ call ∧
        IsCall s.library r m.cache call (referWithin s room caller chain raw m).2.cache := by
  intro m m'
  have hsteps : Steps s.library [] none ∅ m := (Steps.refl ∅).serve requests
  have hlater : Steps s.library [] none m m' := (Steps.refl m).serve later
  obtain ⟨log, hlog, htrace⟩ := hsteps.traced
  obtain rfl : m.log = log := hlog
  refine ⟨htrace, fun key => ?_, htrace.nodup_stored, fun _ => htrace.storedOnce,
    htrace.length_stored_le, hlater.traced, fun key content hkey m'' calls hcalls => ?_, ?_⟩
  · rw [htrace.contains_iff]
    exact or_iff_right (by simp [Catalog.contains, show (∅ : Memory).cache = ∅ from rfl])
  · have hkept := hcalls.get?_eq hkey
    refine ⟨hkept, fun room _ _ _ r hp hr => ?_⟩
    subst hr
    exact referWithin_of_remembered hp hkept room
  · exact fun room _ chain _ _ hp m => (steps_referWithin room chain hp m).traced

/-- A base that two references reach is stored once, and a section that inherits from itself is
never stored. -/
example :
    (serve ⟨Session.garage, none, defaultDepth⟩
      [.reference (some "tank") "this:Scout", .operation (.compile .skip)] ∅).log =
      [.fetch "tank:Scout" false, .look "tank" true, .fetch "tank:Tank" false, .look "tank" true,
        .fetch "base:Unit" false, .look "base" true, .store "base:Unit", .fetch "base:Unit" true,
        .store "tank:Tank", .store "tank:Scout", .fetch "base:Loop" false, .look "base" true,
        .fetch "base:Loop" false, .fetch "base:Unit" true, .fetch "base:Unit" true,
        .fetch "tank:Tank" true] := by
  decide +kernel

end SectionCompiler.Resolution
