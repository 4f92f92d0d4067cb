import SectionCompiler.Proofs.Nesting

/-! What the faults of cycle and depth report. Both come with the references that were under way,
and these are a walk along inheritance: the first is named where the resolution was begun, and each
other one in the section of the one before it. The walk is read off the recursion alone, so it does
not matter what the memory holds. -/

namespace SectionCompiler

namespace Inheritance

/-- A walk along inheritance, from a reference of which `First` holds. -/
structure IsWalk (l : Library) (First : Reference → Prop) (walk : List Reference) : Prop where
  first : ∀ r ∈ walk.head?, First r
  steps : walk.IsChain (Inherits l)

/-- A chain of keys that ends where it has been before. -/
structure ReportsCycle (l : Library) (First : Reference → Prop) (chain : List String) : Prop where
  two_le_length : 2 ≤ chain.length
  closes : ∃ others last, chain = others ++ [last] ∧ others.Nodup ∧ others.count last = 1
  walked : ∃ walk, walk.map Reference.key = chain ∧ IsWalk l First walk ∧ ∀ r ∈ walk, r ∈ places l

/-- A walk without repetition that has one reference more than the limit allows, the last of which
has the key. -/
def ReportsDepth (l : Library) (First : Reference → Prop) (key : String) (limit : Nat) : Prop :=
  ∃ earlier last, last.key = key ∧ (earlier ++ [last]).length = limit + 1 ∧
    ((earlier ++ [last]).map Reference.key).Nodup ∧ IsWalk l First (earlier ++ [last]) ∧
    ∀ r ∈ earlier, r ∈ places l

variable {l : Library} {First First' : Reference → Prop}

theorem IsWalk.mono (h : ∀ r, First r → First' r) {walk : List Reference}
    (hw : IsWalk l First walk) : IsWalk l First' walk :=
  ⟨fun r hr => h r (hw.first r hr), hw.steps⟩

theorem IsWalk.nil (l : Library) (First : Reference → Prop) : IsWalk l First [] :=
  ⟨fun _ h => absurd h (by simp), .nil⟩

theorem IsWalk.concat {walk : List Reference} {r t : Reference}
    (h : IsWalk l First (walk ++ [r])) (hs : Inherits l r t) :
    IsWalk l First (walk ++ [r] ++ [t]) := by
  refine ⟨fun u hu => h.first u ?_, ?_⟩
  · rwa [List.head?_append_of_ne_nil _ (by simp)] at hu
  · apply h.steps.append (.singleton t)
    intro u hu v hv
    simp only [List.getLast?_append, List.getLast?_singleton, Option.some_or, Option.mem_some,
      List.head?_cons] at hu hv
    exact hu ▸ hv ▸ hs

end Inheritance

namespace Resolution

open Inheritance

def Fault.Reports (s : Sources) (First : Reference → Prop) : Fault → Prop
  | .cycle chain => ReportsCycle s.library First chain
  | .tooDeep key limit => limit = s.maxDepth ∧ ReportsDepth s.library First key limit
  | _ => True

variable {s : Sources} {First First' : Reference → Prop}

theorem Fault.Reports.mono (h : ∀ r, First r → First' r) {fault : Fault}
    (hf : fault.Reports s First) : fault.Reports s First' := by
  cases fault with
  | cycle chain =>
    obtain ⟨hlen, hcloses, walk, hkeys, hwalk, hplaces⟩ := hf
    exact ⟨hlen, hcloses, walk, hkeys, hwalk.mono h, hplaces⟩
  | tooDeep key limit =>
    obtain ⟨hlimit, earlier, last, hkey, hlen, hnodup, hwalk, hplaces⟩ := hf
    exact ⟨hlimit, earlier, last, hkey, hlen, hnodup, hwalk.mono h, hplaces⟩
  | reference | unknownTemplate | unknownDocument | unknownSection => trivial

/-- Steps that fail with faults of one kind only. -/
def failing (P : Fault → Prop) (htemplate : ∀ name, P (.unknownTemplate name)) :
    Simulation Resolution Resolution where
  rel _ step := ∀ m fault, (step m).1 = .error fault → P fault
  pure_rel _ _ _ h := by cases h
  throw_rel name _ _ h := Except.error.inj h ▸ htemplate name
  bind_rel {_ _ _ step _ next} hx hf m fault h := by
    rw [run_bind] at h
    rcases hs : step m with ⟨cause | a, m'⟩
    · rw [hs] at h
      exact Except.error.inj h ▸ hx m cause (by rw [hs])
    · rw [hs] at h
      exact hf a m' fault h

/-- A section that is put together fails with a fault of its references, or for want of a
template. -/
theorem assemble_fails {P : Fault → Prop} (htemplate : ∀ name, P (.unknownTemplate name))
    {refer : String → Resolution Section} {content : Section}
    (h : ∀ raw ∈ content.references, ∀ m fault, (refer raw m).1 = .error fault → P fault)
    (templates : Option TemplateStore) (m : Memory) {fault : Fault}
    (hfault : (assemble refer templates content m).1 = .error fault) : P fault := by
  have hrel : (failing P htemplate).rel (assemble refer templates content)
      (assemble refer templates content) := (failing P htemplate).assemble_rel h
  exact hrel m fault hfault

theorem bind_pure_eq_error {α β : Type} {step : Resolution α} {f : α → β} {m : Memory}
    {fault : Fault} (h : ((step >>= fun a => pure (f a)) m).1 = .error fault) :
    (step m).1 = .error fault := by
  rw [run_bind] at h
  rcases hs : step m with ⟨cause | a, m'⟩
  · rw [hs] at h
    exact congrArg Except.error (Except.error.inj h)
  · rw [hs] at h
    cases h

theorem exists_of_mapM_eq_error {α β : Type} {step : α → Resolution β} {xs : List α} {m : Memory}
    {fault : Fault} (h : (xs.mapM step m).1 = .error fault) :
    ∃ x ∈ xs, ∃ m', (step x m').1 = .error fault := by
  induction xs generalizing m with
  | nil =>
    rw [List.mapM_nil] at h
    cases h
  | cons x rest ih =>
    rw [List.mapM_cons, run_bind] at h
    rcases hs : step x m with ⟨cause | b, m'⟩
    · rw [hs] at h
      exact ⟨x, List.mem_cons_self, m, hs ▸ congrArg Except.error (Except.error.inj h)⟩
    · rw [hs] at h
      obtain ⟨y, hy, m'', hm⟩ := ih (bind_pure_eq_error h)
      exact ⟨y, List.mem_cons_of_mem _ hy, m'', hm⟩

/-- The references under way: a walk over distinct places. -/
structure UnderWay (s : Sources) (First : Reference → Prop) (path : List Reference) : Prop where
  walk : IsWalk s.library First path
  places : ∀ r ∈ path, r ∈ places s.library
  nodup : (path.map Reference.key).Nodup

variable {path : List Reference} {r : Reference}

theorem UnderWay.concat (h : UnderWay s First path) (hwalk : IsWalk s.library First (path ++ [r]))
    (hr : r ∈ Inheritance.places s.library) (hfresh : r.key ∉ path.map Reference.key) :
    UnderWay s First (path ++ [r]) := by
  refine ⟨hwalk, ?_, ?_⟩
  · intro t ht
    rcases List.mem_append.1 ht with ht | ht
    · exact h.places t ht
    · exact List.mem_singleton.1 ht ▸ hr
  · rw [List.map_append, List.map_singleton]
    exact Chain.nodup_extend h.nodup hfresh

/-- A reference that is under way already closes the chain. -/
theorem UnderWay.reportsCycle (hlib : ∀ name ∈ s.library.names, IsPlain name)
    (h : UnderWay s First path) (hwalk : IsWalk s.library First (path ++ [r]))
    (hr : IsPlain r.document) (hmem : r.key ∈ path.map Reference.key) :
    ReportsCycle s.library First (Chain.extend (path.map Reference.key) r.key) := by
  obtain ⟨p, hp, hkey⟩ := List.mem_map.1 hmem
  obtain rfl := Reference.eq_of_key_eq (isPlain_of_mem_places hlib (h.places p hp)) hr hkey
  refine ⟨?_, ⟨_, _, rfl, h.nodup, List.count_eq_one_of_mem h.nodup hmem⟩,
    path ++ [p], ?_, hwalk, ?_⟩
  · have hpos := List.length_pos_of_mem hmem
    rw [Chain.extend, List.length_append, List.length_singleton]
    omega
  · rw [List.map_append, List.map_singleton, Chain.extend]
  · intro t ht
    rcases List.mem_append.1 ht with ht | ht
    · exact h.places t ht
    · exact List.mem_singleton.1 ht ▸ h.places p hp

/-- A reference for which the chain has no room lies one deeper than the cap. -/
theorem UnderWay.reportsDepth (h : UnderWay s First path)
    (hwalk : IsWalk s.library First (path ++ [r])) (hfresh : r.key ∉ path.map Reference.key)
    (hlen : path.length = s.maxDepth) :
    ReportsDepth s.library First r.key s.maxDepth := by
  refine ⟨path, r, rfl, ?_, ?_, hwalk, h.places⟩
  · rw [List.length_append, List.length_singleton, hlen]
  · rw [List.map_append, List.map_singleton]
    exact Chain.nodup_extend h.nodup hfresh

theorem reports_of_seek {fault : Fault} (h : Direct.seek s.library r = .error fault) :
    fault.Reports s First := by
  unfold Direct.seek at h
  split at h
  · exact Except.error.inj h ▸ trivial
  · split at h
    · exact Except.error.inj h ▸ trivial
    · cases h

theorem record_eq_error {answer : Except Fault Section × Memory} {fault : Fault}
    (h : (record r answer).1 = .error fault) : answer.1 = .error fault := by
  rcases answer with ⟨_ | _, _⟩
  · exact h
  · cases h

/-- A resolution step that fails reports the references under way. -/
theorem reports_referWithin (hlib : ∀ name ∈ s.library.names, IsPlain name) {room : Nat}
    {caller : Option String} {raw : String} (hroom : path.length + room = s.maxDepth)
    (hpath : UnderWay s First path) (hcaller : path ≠ [] → Reference.PlainCaller caller)
    (hnext : ∀ r, Reference.parse raw caller = .ok r → IsWalk s.library First (path ++ [r]))
    (m : Memory) {fault : Fault}
    (h : (referWithin s room caller (path.map Reference.key) raw m).1 = .error fault) :
    fault.Reports s First := by
  induction room using Nat.strongRecOn generalizing path caller raw m fault with
  | _ room ih =>
    cases hparse : Reference.parse raw caller with
    | error cause =>
      rw [referWithin_of_error hparse] at h
      exact Except.error.inj h ▸ trivial
    | ok r =>
      cases hmiss : m.cache.get? r.key with
      | some content =>
        rw [referWithin_of_remembered hparse hmiss] at h
        cases h
      | none =>
        by_cases hmem : r.key ∈ path.map Reference.key
        · rw [referWithin_of_mem_chain hparse hmiss hmem] at h
          have hplain := Reference.isPlain_of_parse
            (hcaller fun hnil => absurd hmem (by simp [hnil])) hparse
          exact Except.error.inj h ▸ hpath.reportsCycle hlib (hnext r hparse) hplain hmem
        · cases room with
          | zero =>
            rw [referWithin_zero hparse hmiss hmem] at h
            exact Except.error.inj h ▸ ⟨rfl, hpath.reportsDepth (hnext r hparse) hmem hroom⟩
          | succ room =>
            rw [referWithin_asked hparse hmiss hmem] at h
            cases hseek : Direct.seek s.library r with
            | error cause =>
              rw [hseek] at h
              exact Except.error.inj h ▸ reports_of_seek hseek
            | ok content =>
              rw [hseek] at h
              have hcontent := Direct.seek_eq_ok_iff.1 hseek
              have hr := mem_places_iff.2 ⟨content, hcontent⟩
              have hkeys : Chain.extend (path.map Reference.key) r.key =
                  (path ++ [r]).map Reference.key := by
                rw [Chain.extend, List.map_append, List.map_singleton]
              rw [hkeys] at h
              -- the section is put together by references that continue the walk
              refine assemble_fails (fun _ => trivial) (fun raw' hraw' m' fault' h' => ?_) _ _
                (record_eq_error h)
              refine ih room (Nat.lt_succ_self room) ?_ (hpath.concat (hnext r hparse) hr hmem)
                (fun _ => plainCaller_some (isPlain_of_mem_places hlib hr)) ?_ m' h'
              · rw [List.length_append, List.length_singleton]
                omega
              · intro t ht
                exact (hnext r hparse).concat ⟨content, hcontent, raw', hraw', ht⟩

theorem UnderWay.nil (s : Sources) (First : Reference → Prop) : UnderWay s First [] :=
  ⟨.nil _ _, fun _ h => absurd h List.not_mem_nil, List.nodup_nil⟩

theorem reports_refer (hlib : ∀ name ∈ s.library.names, IsPlain name) {caller : Option String}
    {raw : String} (m : Memory) {fault : Fault} (h : (refer s caller [] raw m).1 = .error fault) :
    fault.Reports s fun r => Reference.parse raw caller = .ok r := by
  refine reports_referWithin hlib (Nat.zero_add s.maxDepth) (UnderWay.nil s _)
    (fun hne => absurd rfl hne) (fun r hr => ?_) m h
  refine ⟨fun t ht => ?_, .singleton r⟩
  rw [List.nil_append, List.head?_cons, Option.mem_some] at ht
  exact ht ▸ hr

theorem reports_resolve (hlib : ∀ name ∈ s.library.names, IsPlain name) {caller : Option String}
    {content : Section} (m : Memory) {fault : Fault}
    (h : (resolve s caller [] content m).1 = .error fault) :
    fault.Reports s (Names caller content) := by
  refine assemble_fails (fun _ => trivial) (fun raw hraw m' fault' h' => ?_) _ m h
  exact (reports_refer hlib m' h').mono fun r hr => ⟨raw, hraw, hr⟩

end Resolution

namespace Session

open Inheritance
open Resolution (Memory Fault)

variable {s : Sources}

/-- The fault of resolution in an outcome, also as the cause of a document's fault. -/
def Outcome.fault? : Outcome → Option Fault
  | document (.error (.within _ fault)) => some fault
  | content (.error fault) => some fault
  | _ => none

theorem Outcome.fault?_document_eq_some {answer : Except Compilation.Fault Document}
    {fault : Fault} :
    (Outcome.document answer).fault? = some fault ↔
      ∃ name, answer = .error (.within name fault) := by
  rcases answer with (_ | ⟨name, cause⟩) | _ <;> simp [fault?]

theorem Outcome.fault?_content_eq_some {answer : Except Fault Section} {fault : Fault} :
    (Outcome.content answer).fault? = some fault ↔ answer = .error fault := by
  rcases answer with _ | _ <;> simp [fault?]

/-- What a fault of a call says of cycles and depth is so, from the section with which the
resolution was begun that failed. -/
def Call.Reports (s : Sources) (fault : Fault) : Call → Prop
  | document name => ∃ document e m, s.library.get? name = some document ∧ e ∈ document.entries ∧
      (Resolution.resolve s (some name) [] e.2 m).1 = .error fault ∧
      fault.Reports s (Names (some name) e.2)
  | passage home content => fault.Reports s (Names (some home) content)
  | reference raw => fault.Reports s fun r => Reference.parse raw none = .ok r

theorem reports_compileDocument (hlib : ∀ name ∈ s.library.names, IsPlain name)
    {name document : String} {m : Memory} {fault : Fault}
    (h : (Compilation.compileDocument s name m).1 = .error (.within document fault)) :
    Call.Reports s fault (.document name) := by
  rw [compileDocument_apply] at h
  cases hd : s.library.get? name with
  | none => simp [hd] at h
  | some document =>
    simp only [hd] at h
    cases hr : (Compilation.resolveAll (Resolution.resolve s (some name) []) document m).1 with
    | ok compiled =>
      rw [hr] at h
      cases h
    | error cause =>
      rw [hr] at h
      obtain ⟨-, rfl⟩ := Compilation.Fault.within.inj (Except.error.inj h)
      obtain ⟨e, he, m', hm⟩ :=
        Resolution.exists_of_mapM_eq_error (Resolution.bind_pure_eq_error hr)
      have hresolve := Resolution.bind_pure_eq_error hm
      exact ⟨document, e, m', hd, he, hresolve, Resolution.reports_resolve hlib m' hresolve⟩

theorem mem_compileSteps {policy : Policy} {names : List String} {m : Memory}
    {step : String × Except Compilation.Fault Document}
    (h : step ∈ compileSteps s policy names m) :
    step.1 ∈ names ∧ ∃ m', (Compilation.compileDocument s step.1 m').1 = step.2 := by
  induction names generalizing m with
  | nil => exact absurd h List.not_mem_nil
  | cons name rest ih =>
    rcases hc : Compilation.compileDocument s name m with ⟨answer, m'⟩
    have hcons : step ∈ (name, answer) :: compileSteps s policy rest m' →
        step.1 ∈ name :: rest ∧ ∃ m', (Compilation.compileDocument s step.1 m').1 = step.2 := by
      intro hm
      rcases List.mem_cons.1 hm with rfl | hm
      · exact ⟨List.mem_cons_self, m, by rw [hc]⟩
      · exact ⟨List.mem_cons_of_mem _ (ih hm).1, (ih hm).2⟩
    cases answer with
    | ok document => exact hcons (by simpa only [compileSteps, hc] using h)
    | error fault =>
      cases policy with
      | abort =>
        simp only [compileSteps, hc, List.mem_singleton] at h
        exact hcons (h ▸ List.mem_cons_self)
      | skip => exact hcons (by simpa only [compileSteps, hc] using h)

theorem exists_step_of_tally {policy : Policy} {fault : Compilation.Fault}
    {steps : List (String × Except Compilation.Fault Document)} {done : Compilation.Result}
    (h : tally policy steps done = .error fault) : ∃ step ∈ steps, step.2 = .error fault := by
  induction steps generalizing done with
  | nil => cases h
  | cons step rest ih =>
    obtain ⟨name, _ | _⟩ := step
    · cases policy with
      | abort => exact ⟨_, List.mem_cons_self, congrArg Except.error (Except.error.inj h)⟩
      | skip =>
        obtain ⟨step, hs, he⟩ := ih h
        exact ⟨step, List.mem_cons_of_mem _ hs, he⟩
    · obtain ⟨step, hs, he⟩ := ih h
      exact ⟨step, List.mem_cons_of_mem _ hs, he⟩

theorem reports_call (hlib : ∀ name ∈ s.library.names, IsPlain name) (c : Call) (m : Memory)
    {fault : Fault} (h : (c.answer s m).1.fault? = some fault) : c.Reports s fault := by
  cases c with
  | document name =>
    obtain ⟨document, hd⟩ := Outcome.fault?_document_eq_some.1 h
    exact reports_compileDocument hlib hd
  | passage home content =>
    exact Resolution.reports_resolve hlib m (Outcome.fault?_content_eq_some.1 h)
  | reference raw => exact Resolution.reports_refer hlib m (Outcome.fault?_content_eq_some.1 h)

/-- The faults of cycle and depth report how inheritance goes. Whatever the memory holds, an
operation that fails at a cycle reports a chain of keys of places that ends at exactly one of the
keys before, which are distinct; one that fails at the depth limit reports a reference at the end of
a walk without repetition that has one member more than the limit. The walk begins with a reference
that the operation asks for or that is named in a section that it asks for, and goes on from each
section to a reference named in it. So it is with every call of the operation, and the fault of a
compilation is that of a call for one of its documents. -/
theorem faults_report_walks (s : Sources) (hlib : ∀ name ∈ s.library.names, IsPlain name)
    (op : Operation) (m : Memory) :
    (∀ a ∈ (op.run s m).1, ∀ fault, a.2.fault? = some fault → a.1.Reports s fault) ∧
    ∀ policy fault, (Compilation.compile s policy m).1 = .error fault →
      ∃ name cause, fault = .within name cause ∧
        Call.Reports s cause (.document name) := by
  constructor
  · intro a ha fault hf
    cases op with
    | call c =>
      obtain rfl := List.mem_singleton.1 ha
      exact reports_call hlib c m hf
    | compile policy =>
      obtain ⟨step, hs, rfl⟩ := List.mem_map.1 ha
      obtain ⟨-, m', hc⟩ := mem_compileSteps hs
      obtain ⟨document, hd⟩ := Outcome.fault?_document_eq_some.1 hf
      exact reports_compileDocument hlib (hc.trans hd)
  · intro policy fault h
    rw [Compilation.compile, compileNames_eq_tally] at h
    obtain ⟨step, hs, he⟩ := exists_step_of_tally h
    obtain ⟨hname, m', hc⟩ := mem_compileSteps hs
    obtain ⟨cause, rfl⟩ := exists_within_of_compileDocument hname (hc.trans he)
    exact ⟨step.1, cause, rfl, reports_compileDocument hlib (hc.trans he)⟩

def roundabout : Library :=
  Catalog.ofList [
    ("north", Keyed.ofList [
      ("Ring", ⟨[("@Inherits", .scalar "south:Ring")]⟩),
      ("Exit", ⟨[("Lanes", .scalar "2"), ("@Inherits", .list ["./north:Ring"])]⟩)]),
    ("south", Keyed.ofList [("Ring", ⟨[("@Inherits", .scalar "north:Ring")]⟩)])]

/-- From the exit the walk goes once around; with a limit of one it ends at the second ring. -/
theorem faults_report_walks_roundabout :
    let op := Operation.call (.passage "north" ⟨[("@Inherits", .scalar "this:Ring")]⟩)
    (∀ name ∈ roundabout.names, IsPlain name) ∧
      ((op.run ⟨roundabout, none, 64⟩ ∅).1.map fun a => a.2.fault?) =
        [some (.cycle ["north:Ring", "south:Ring", "north:Ring"])] ∧
      ((op.run ⟨roundabout, none, 1⟩ ∅).1.map fun a => a.2.fault?) =
        [some (.tooDeep "south:Ring" 1)] ∧
      ∀ cap,
        (∀ a ∈ (op.run ⟨roundabout, none, cap⟩ ∅).1, ∀ fault, a.2.fault? = some fault →
          a.1.Reports ⟨roundabout, none, cap⟩ fault) ∧
        ∀ policy fault, (Compilation.compile ⟨roundabout, none, cap⟩ policy ∅).1 = .error fault →
          ∃ name cause, fault = .within name cause ∧
            Call.Reports ⟨roundabout, none, cap⟩ cause (.document name) := by
  have hlib : ∀ name ∈ roundabout.names, IsPlain name := by decide
  intro op
  refine ⟨hlib, by decide +kernel, by decide +kernel, fun cap => ?_⟩
  exact faults_report_walks ⟨roundabout, none, cap⟩ hlib op ∅

end Session

end SectionCompiler
