import SectionCompiler.Proofs.Memory

/-! Sessions. A session puts questions to one memory, one after another, and some of them may fail.
What it is told is what resolution without memory would tell it, but for the depth fault: the
memory may know a reference that lies too deep. -/

namespace SectionCompiler.Session

open Resolution (Memory Faithful Fault)

inductive Call where
  /-- All sections of a document of the library, resolved. -/
  | document (name : String)
  /-- A section that stands in the document `home`, resolved. -/
  | passage (home : String) (content : Section)
  /-- The section that a reference outside any document stands for. -/
  | reference (raw : String)
  deriving DecidableEq, Repr

inductive Outcome where
  | document (answer : Except Compilation.Fault Document)
  | content (answer : Except Fault Section)
  deriving DecidableEq

namespace Outcome

def isTooDeep : Outcome → Bool
  | document (.error (.within _ fault)) => fault.isTooDeep
  | content (.error fault) => fault.isTooDeep
  | _ => false

def succeeds : Outcome → Bool
  | document answer => answer.isOk
  | content answer => answer.isOk

/-- The outcome is the other one, or a depth fault in its place. -/
def Below (x y : Outcome) : Prop := x = y ∨ x.isTooDeep

end Outcome

namespace Call

/-- The outcome of a call and the memory after it. -/
def answer (s : Sources) : Call → Memory → Outcome × Memory
  | document name, m =>
    let (answer, m) := Compilation.compileDocument s name m
    (.document answer, m)
  | passage home content, m =>
    let (answer, m) := Resolution.resolve s (some home) [] content m
    (.content answer, m)
  | reference raw, m =>
    let (answer, m) := Resolution.refer s none [] raw m
    (.content answer, m)

/-- The outcome of a call without memory, for a cap on the length of chains or for none. -/
def direct (s : Sources) (cap : Option Nat) : Call → Outcome
  | document name => .document (Direct.compileDocument s name cap)
  | passage home content => .content ((Direct.resolve s (some home) [] content).run cap)
  | reference raw => .content ((Direct.refer s none [] raw).run cap)

def IsPlain : Call → Prop
  | passage home _ => SectionCompiler.IsPlain home
  | _ => True

end Call

/-- The documents that a compilation compiles, each with the answer for it. -/
def compileSteps (s : Sources) (policy : Policy) :
    List String → Memory → List (String × Except Compilation.Fault Document)
  | [], _ => []
  | name :: rest, m =>
    match Compilation.compileDocument s name m, policy with
    | (.error fault, _), .abort => [(name, .error fault)]
    | (answer, m), _ => (name, answer) :: compileSteps s policy rest m

/-- What the answers for single documents come to. -/
def tally (policy : Policy) :
    List (String × Except Compilation.Fault Document) → Compilation.Result →
      Except Compilation.Fault Compilation.Result
  | [], done => .ok done
  | (name, .ok document) :: rest, done => tally policy rest (done.add name document)
  | (name, .error fault) :: rest, done =>
    match policy with
    | .skip => tally policy rest (done.skip name)
    | .abort => .error fault

/-- A step of a session: a call, or the compilation of the whole library, which calls for one
document after another. -/
inductive Operation where
  | call (c : Call)
  | compile (policy : Policy)
  deriving DecidableEq, Repr

namespace Operation

/-- The calls of an operation with their outcomes, and the memory after it. -/
def run (s : Sources) : Operation → Memory → List (Call × Outcome) × Memory
  | call c, m =>
    let (outcome, m) := c.answer s m
    ([(c, outcome)], m)
  | compile policy, m =>
    ((compileSteps s policy s.library.names m).map fun step =>
        (.document step.1, .document step.2),
      (Compilation.compile s policy m).2)

def IsPlain : Operation → Prop
  | call c => c.IsPlain
  | compile _ => True

end Operation

def run (s : Sources) : List Operation → Memory → List (Call × Outcome) × Memory
  | [], m => ([], m)
  | op :: rest, m =>
    let (first, m) := op.run s m
    let (others, m) := run s rest m
    (first ++ others, m)

variable {s : Sources}

theorem compileDocument_apply (name : String) (m : Memory) :
    Compilation.compileDocument s name m =
      match s.library.get? name with
      | none => (.error (.unknownDocument name), m)
      | some document =>
        let found := Compilation.resolveAll (Resolution.resolve s (some name) []) document m
        (found.1.mapError (.within name), found.2) := by
  unfold Compilation.compileDocument
  cases s.library.get? name with
  | none => rfl
  | some document =>
    dsimp only
    rcases Compilation.resolveAll (Resolution.resolve s (some name) []) document m with ⟨_ | _, _⟩
    · rfl
    · rfl

theorem exists_within_of_compileDocument {name : String} {m : Memory} {fault : Compilation.Fault}
    (hname : name ∈ s.library.names)
    (h : (Compilation.compileDocument s name m).1 = .error fault) :
    ∃ cause, fault = .within name cause := by
  obtain ⟨document, hd⟩ := Catalog.mem_names_iff.1 hname
  rw [compileDocument_apply, hd] at h
  dsimp only at h
  cases hr : (Compilation.resolveAll (Resolution.resolve s (some name) []) document m).1 with
  | ok compiled =>
    rw [hr] at h
    cases h
  | error cause =>
    rw [hr] at h
    exact ⟨cause, (Except.error.inj h).symm⟩

theorem Outcome.below_document {x y : Except Fault Document}
    (h : Resolution.Below Fault.isTooDeep x y) (name : String) :
    Below (.document (x.mapError (.within name))) (.document (y.mapError (.within name))) := by
  rcases h with rfl | ⟨fault, hw, rfl⟩
  · exact Or.inl rfl
  · exact Or.inr hw

theorem Outcome.below_content {x y : Except Fault Section}
    (h : Resolution.Below Fault.isTooDeep x y) : Below (.content x) (.content y) := by
  rcases h with rfl | ⟨fault, hw, rfl⟩
  · exact Or.inl rfl
  · exact Or.inr hw

theorem Outcome.isTooDeep_of_succeeds {x : Outcome} (h : x.succeeds = true) :
    x.isTooDeep = false := by
  cases x with
  | document answer =>
    cases answer with
    | ok _ => rfl
    | error _ => exact absurd h (by simp [succeeds, Except.isOk, Except.toBool])
  | content answer =>
    cases answer with
    | ok _ => rfl
    | error _ => exact absurd h (by simp [succeeds, Except.isOk, Except.toBool])

theorem Outcome.Below.eq_ok {x y : Except Compilation.Fault Document} {v : Document}
    (h : (Outcome.document x).Below (.document y)) (hx : x = .ok v) : y = .ok v := by
  rcases h with heq | hdeep
  · exact Outcome.document.inj heq ▸ hx
  · exact absurd hdeep (by simp [hx, isTooDeep])

/-- A call answers between two calls without memory and keeps a faithful memory. -/
def Between (s : Sources) (c : Call) (outcome : Outcome) (m : Memory) : Prop :=
  (c.direct s (some s.maxDepth)).Below outcome ∧ outcome.Below (c.direct s none) ∧ Faithful s m

theorem between_document (hlib : ∀ name ∈ s.library.names, IsPlain name) {m : Memory}
    (hm : Faithful s m) (name : String) :
    Between s (.document name) (.document (Compilation.compileDocument s name m).1)
      (Compilation.compileDocument s name m).2 := by
  simp only [Between, Call.direct, Direct.compileDocument, compileDocument_apply]
  cases hd : s.library.get? name with
  | none => exact ⟨Or.inl rfl, Or.inl rfl, hm⟩
  | some document =>
    have hplain := Inheritance.plainCaller_some (hlib name (Catalog.mem_names_iff.2 ⟨_, hd⟩))
    have h : Resolution.Between s
        (Compilation.resolveAll (Direct.resolve s (some name) []) document)
        (Compilation.resolveAll (Resolution.resolve s (some name) []) document) :=
      (Resolution.betweenness s).resolveAll_rel fun e _ =>
        Resolution.between_resolve e.2 hplain
    obtain ⟨hlow, hhigh, hkeep⟩ := h m hm
    exact ⟨Outcome.below_document hlow name, Outcome.below_document hhigh name, hkeep⟩

theorem between_call (hlib : ∀ name ∈ s.library.names, IsPlain name) {m : Memory}
    (hm : Faithful s m) {c : Call} (hc : c.IsPlain) :
    Between s c (c.answer s m).1 (c.answer s m).2 := by
  cases c with
  | document name => exact between_document hlib hm name
  | passage home content =>
    obtain ⟨hlow, hhigh, hkeep⟩ :=
      Resolution.between_resolve content (Inheritance.plainCaller_some hc) m hm
    exact ⟨Outcome.below_content hlow, Outcome.below_content hhigh, hkeep⟩
  | reference raw =>
    obtain ⟨hlow, hhigh, hkeep⟩ :=
      Resolution.between_refer (fun _ h => absurd h (Option.not_mem_none _))
        (fun r _ => Direct.trail_nil r) m hm
    exact ⟨Outcome.below_content hlow, Outcome.below_content hhigh, hkeep⟩

/-- What the compilation of each document keeps a compilation keeps, also one that stops early. -/
theorem compileNames_keeps {P : Memory → Prop}
    (h : ∀ name m, P m → P (Compilation.compileDocument s name m).2) {policy : Policy}
    {names : List String} {done : Compilation.Result} {m : Memory} (hm : P m) :
    P (Compilation.compileNames s policy names done m).2 := by
  induction names generalizing done m with
  | nil => exact hm
  | cons name rest ih =>
    have hkeep := h name m hm
    rcases hc : Compilation.compileDocument s name m with ⟨answer, m'⟩
    rw [hc] at hkeep
    cases answer with
    | ok document => simpa only [Compilation.compileNames, hc] using ih hkeep
    | error fault =>
      cases policy with
      | abort => simpa only [Compilation.compileNames, hc] using hkeep
      | skip => simpa only [Compilation.compileNames, hc] using ih hkeep

theorem answer_keeps {P : Memory → Prop}
    (h : ∀ caller raw m, P m → P (Resolution.refer s caller [] raw m).2) (c : Call) {m : Memory}
    (hm : P m) : P (c.answer s m).2 := by
  have hresolve (home : String) (content : Section) (m : Memory) (hm : P m) :
      P (Resolution.resolve s (some home) [] content m).2 :=
    Resolution.keeps_assemble (h (some home)) hm
  cases c with
  | document name =>
    simp only [Call.answer, compileDocument_apply]
    cases s.library.get? name with
    | none => exact hm
    | some document => exact Resolution.keeps_resolveAll (hresolve name) hm
  | passage home content => exact hresolve home content m hm
  | reference raw => exact h none raw m hm

theorem run_keeps {P : Memory → Prop} (h : ∀ (c : Call) m, P m → P (c.answer s m).2)
    (ops : List Operation) {m : Memory} (hm : P m) : P (run s ops m).2 := by
  induction ops generalizing m with
  | nil => exact hm
  | cons op rest ih =>
    refine ih ?_
    cases op with
    | call c => exact h c m hm
    | compile policy => exact compileNames_keeps (P := P) (fun name m hm => h (.document name) m hm) hm

theorem between_compileSteps (hlib : ∀ name ∈ s.library.names, IsPlain name) {policy : Policy}
    {names : List String} {m : Memory} (hm : Faithful s m) :
    ∀ step ∈ compileSteps s policy names m,
      ∃ m', Between s (.document step.1) (.document step.2) m' := by
  induction names generalizing m with
  | nil => simp [compileSteps]
  | cons name rest ih =>
    have hfirst := between_document hlib hm name
    rcases hc : Compilation.compileDocument s name m with ⟨answer, m'⟩
    rw [hc] at hfirst
    have hsteps : ∀ step ∈ (name, answer) :: compileSteps s policy rest m',
        ∃ m', Between s (.document step.1) (.document step.2) m' :=
      List.forall_mem_cons.2 ⟨⟨m', hfirst⟩, ih hfirst.2.2⟩
    intro step hs
    cases answer with
    | ok document => exact hsteps step (by simpa only [compileSteps, hc] using hs)
    | error fault =>
      cases policy with
      | abort =>
        simp only [compileSteps, hc, List.mem_singleton] at hs
        exact hsteps step (hs ▸ List.mem_cons_self)
      | skip => exact hsteps step (by simpa only [compileSteps, hc] using hs)

theorem between_operation (hlib : ∀ name ∈ s.library.names, IsPlain name) {m : Memory}
    (hm : Faithful s m) {op : Operation} (hop : op.IsPlain) :
    (∀ a ∈ (op.run s m).1, ∃ m', Between s a.1 a.2 m') ∧ Faithful s (op.run s m).2 := by
  cases op with
  | call c =>
    have h := between_call hlib hm hop
    refine ⟨fun a ha => ⟨(c.answer s m).2, ?_⟩, h.2.2⟩
    rw [List.mem_singleton.1 ha]
    exact h
  | compile policy =>
    have hkeep : Faithful s (Compilation.compile s policy m).2 :=
      compileNames_keeps (P := Faithful s) (fun name m hm => (between_document hlib hm name).2.2) hm
    refine ⟨fun a ha => ?_, hkeep⟩
    obtain ⟨step, hs, rfl⟩ := List.mem_map.1 ha
    exact between_compileSteps hlib hm step hs

theorem between_run (hlib : ∀ name ∈ s.library.names, IsPlain name) {m : Memory}
    (hm : Faithful s m) {ops : List Operation} (hops : ∀ op ∈ ops, op.IsPlain) :
    ∀ a ∈ (run s ops m).1, ∃ m', Between s a.1 a.2 m' := by
  induction ops generalizing m with
  | nil => simp [run]
  | cons op rest ih =>
    obtain ⟨hop, hrest⟩ := List.forall_mem_cons.1 hops
    obtain ⟨hfirst, hkeep⟩ := between_operation hlib hm hop
    intro a ha
    rcases List.mem_append.1 ha with ha | ha
    · exact hfirst a ha
    · exact ih hkeep hrest a ha

theorem faithful_run (hlib : ∀ name ∈ s.library.names, IsPlain name) {ops : List Operation}
    (hops : ∀ op ∈ ops, op.IsPlain) {m : Memory} (hm : Faithful s m) :
    Faithful s (run s ops m).2 := by
  induction ops generalizing m with
  | nil => exact hm
  | cons op rest ih =>
    obtain ⟨hop, hrest⟩ := List.forall_mem_cons.1 hops
    exact ih hrest (between_operation hlib hm hop).2

/-- The answer of a compilation is the tally of its steps. -/
theorem compileNames_eq_tally (policy : Policy) (names : List String) (done : Compilation.Result)
    (m : Memory) :
    (Compilation.compileNames s policy names done m).1 =
      tally policy (compileSteps s policy names m) done := by
  induction names generalizing done m with
  | nil => rfl
  | cons name rest ih =>
    rcases hc : Compilation.compileDocument s name m with ⟨answer, m'⟩
    cases answer with
    | ok document => simpa only [Compilation.compileNames, compileSteps, hc, tally] using ih _ m'
    | error fault =>
      cases policy with
      | abort => simp only [Compilation.compileNames, compileSteps, hc, tally]
      | skip => simpa only [Compilation.compileNames, compileSteps, hc, tally] using ih _ m'

/-- Memory shows in nothing but the depth fault. Every call of a session, those of its compilations
among them, has the outcome that it has without memory under the same cap, unless that is the
depth fault; and when it succeeds, it has the outcome that it has without memory and without a
cap. A compilation answers what its steps come to. -/
theorem memory_unobservable (s : Sources) (hlib : ∀ name ∈ s.library.names, IsPlain name)
    (ops : List Operation) (hops : ∀ op ∈ ops, op.IsPlain) :
    (∀ a ∈ (run s ops ∅).1,
      ((a.1.direct s (some s.maxDepth)).isTooDeep = false →
        a.2 = a.1.direct s (some s.maxDepth)) ∧
      (a.2.succeeds = true → a.1.direct s none = a.2)) ∧
    ∀ policy m, (Compilation.compile s policy m).1 =
      tally policy (compileSteps s policy s.library.names m) ⟨[], []⟩ := by
  refine ⟨fun a ha => ?_, fun policy m => compileNames_eq_tally policy _ _ m⟩
  obtain ⟨m', hlow, hhigh, -⟩ := between_run hlib (Resolution.faithful_empty s) hops a ha
  refine ⟨fun h => ?_, fun h => ?_⟩
  · rcases hlow with heq | hdeep
    · exact heq.symm
    · exact absurd hdeep (by simp [h])
  · rcases hhigh with heq | hdeep
    · exact heq.symm
    · exact absurd hdeep (by simp [Outcome.isTooDeep_of_succeeds h])

/-- Two sections that follow each other to a base, and one that inherits from itself. -/
def garage : Library :=
  Catalog.ofList [
    ("base", Keyed.ofList [
      ("Unit", ⟨[("Armor", .scalar "10"), ("Speed", .scalar "5")]⟩),
      ("Loop", ⟨[("@Inherits", .scalar "this:Loop")]⟩)]),
    ("tank", Keyed.ofList [
      ("Tank", ⟨[("@Inherits", .list ["base:Unit", "./base:Unit"]), ("Armor", .scalar "50")]⟩),
      ("Scout", ⟨[("@Inherits", .scalar "this:Tank"), ("Speed", .scalar "9")]⟩)])]

theorem memory_unobservable_garage :
    let s : Sources := ⟨garage, none, 2⟩
    let ops := [.call (.reference "tank:Tank"), .compile .skip, .call (.reference "tank:Scout")]
    (∀ name ∈ s.library.names, IsPlain name) ∧ (∀ op ∈ ops, op.IsPlain) ∧
      ∀ a ∈ (run s ops ∅).1,
        ((a.1.direct s (some s.maxDepth)).isTooDeep = false →
          a.2 = a.1.direct s (some s.maxDepth)) ∧
        (a.2.succeeds = true → a.1.direct s none = a.2) := by
  have hlib : ∀ name ∈ garage.names, IsPlain name := by decide
  have hops : ∀ op ∈ [Operation.call (.reference "tank:Tank"), .compile .skip,
      .call (.reference "tank:Scout")], op.IsPlain := by
    simp [Operation.IsPlain, Call.IsPlain]
  exact ⟨hlib, hops, (memory_unobservable ⟨garage, none, 2⟩ hlib _ hops).1⟩

/-- The depth fault shows the memory: what lies too deep at first is known later. -/
example :
    ((run ⟨garage, none, 2⟩ [.call (.reference "tank:Scout"), .call (.reference "tank:Tank"),
      .call (.reference "tank:Scout")] ∅).1.map fun a => a.2.isTooDeep) =
      [true, false, false] := by cbv

end SectionCompiler.Session
