import Mathlib.Data.List.Nodup
import SectionCompiler.Proofs.Session

/-! The two policies side by side. As long as documents compile, the run that skips and the run
that aborts have one result and one memory; at the first document that fails the one goes on and
the other ends with the fault. -/

namespace SectionCompiler

namespace Compilation

open Resolution (Memory)

variable {s : Sources} {policy : Policy} {name : String} {names : List String} {done : Result}
  {m m' : Memory}

theorem compileNames_cons_of_ok {document : Document}
    (h : compileDocument s name m = (.ok document, m')) :
    compileNames s policy (name :: names) done m =
      compileNames s policy names (done.add name document) m' := by
  simp only [compileNames, h]

theorem compileNames_skip_cons_of_error {fault : Fault}
    (h : compileDocument s name m = (.error fault, m')) :
    compileNames s .skip (name :: names) done m =
      compileNames s .skip names (done.skip name) m' := by
  simp only [compileNames, h]

theorem compileNames_abort_cons_of_error {fault : Fault}
    (h : compileDocument s name m = (.error fault, m')) :
    compileNames s .abort (name :: names) done m = (.error fault, m') := by
  simp only [compileNames, h]

/-- After a run that ends well the next one goes on with its result and its memory. -/
theorem compileNames_append {before : List String} {mid : Result}
    (h : compileNames s policy before done m = (.ok mid, m')) (after : List String) :
    compileNames s policy (before ++ after) done m = compileNames s policy after mid m' := by
  induction before generalizing done m with
  | nil =>
    obtain ⟨hdone, rfl⟩ := Prod.mk.inj h
    obtain rfl := Except.ok.inj hdone
    rfl
  | cons name before ih =>
    rw [List.cons_append]
    rcases hc : compileDocument s name m with ⟨fault | document, m₁⟩
    · cases policy with
      | skip =>
        rw [compileNames_skip_cons_of_error hc] at h ⊢
        exact ih h
      | abort =>
        rw [compileNames_abort_cons_of_error hc] at h
        exact absurd (congrArg Prod.fst h) nofun
    · rw [compileNames_cons_of_ok hc] at h ⊢
      exact ih h

/-- A run that skips comes to an end. Each of its names is in one of the two lists, and both lists
keep the order of the names. -/
theorem exists_compileNames_skip_split (s : Sources) (names : List String) (done : Result)
    (m : Memory) :
    ∃ result m' compiled skipped, compileNames s .skip names done m = (.ok result, m') ∧
      result.documents.map Prod.fst = done.documents.map Prod.fst ++ compiled ∧
      result.skipped = done.skipped ++ skipped ∧
      compiled.Sublist names ∧ skipped.Sublist names ∧ (compiled ++ skipped).Perm names := by
  induction names generalizing done m with
  | nil => exact ⟨done, m, [], [], rfl, by simp, by simp, .slnil, .slnil, .nil⟩
  | cons name names ih =>
    rcases hc : compileDocument s name m with ⟨fault | document, m₁⟩
    · obtain ⟨result, m', compiled, skipped, hrun, hcompiled, hskipped, hsub, hsub', hperm⟩ :=
        ih (done.skip name) m₁
      refine ⟨result, m', compiled, name :: skipped, ?_, hcompiled, ?_, hsub.cons name,
        hsub'.cons_cons name, ?_⟩
      · rw [compileNames_skip_cons_of_error hc, hrun]
      · rw [hskipped, Result.skip, List.append_assoc, List.singleton_append]
      · exact List.perm_middle.trans (hperm.cons name)
    · obtain ⟨result, m', compiled, skipped, hrun, hcompiled, hskipped, hsub, hsub', hperm⟩ :=
        ih (done.add name document) m₁
      refine ⟨result, m', name :: compiled, skipped, ?_, ?_, hskipped, hsub.cons_cons name,
        hsub'.cons name, hperm.cons name⟩
      · rw [compileNames_cons_of_ok hc, hrun]
      · rw [hcompiled, Result.add, List.map_append, List.append_assoc]
        rfl

/-- The two lists of a run that skips have each name of the library in one of them, and both are in
name order. -/
theorem exists_compile_skip_sorted (s : Sources) (m : Memory) :
    ∃ result m', compile s .skip m = (.ok result, m') ∧
      (result.documents.map Prod.fst).Pairwise (· < ·) ∧ result.skipped.Pairwise (· < ·) ∧
      (result.documents.map Prod.fst).Disjoint result.skipped ∧
      (result.documents.map Prod.fst ++ result.skipped).Perm s.library.names := by
  obtain ⟨result, m', compiled, skipped, hrun, hcompiled, hskipped, hsub, hsub', hperm⟩ :=
    exists_compileNames_skip_split s s.library.names ⟨[], []⟩ m
  have hsorted : s.library.names.Pairwise (· < ·) := List.pairwise_map.2 s.library.sorted
  have hnodup : (compiled ++ skipped).Nodup := hperm.nodup_iff.2 s.library.nodup_names
  obtain rfl : compiled = result.documents.map Prod.fst := hcompiled.symm
  obtain rfl : skipped = result.skipped := hskipped.symm
  exact ⟨result, m', hrun, hsorted.sublist hsub, hsorted.sublist hsub',
    List.disjoint_of_nodup_append hnodup, hperm⟩

/-- Under both policies the documents of some names compile with one result and one memory. -/
def RunsAlike (s : Sources) (names : List String) (done : Result) (m : Memory) (result : Result)
    (m' : Memory) : Prop :=
  ∀ policy, compileNames s policy names done m = (.ok result, m')

/-- The first document that fails: before it both runs come to the result `mid` and the memory
`here`. -/
structure FirstFailure (s : Sources) (names : List String) (done : Result) (m : Memory) where
  before : List String
  name : String
  after : List String
  mid : Result
  here : Memory
  fault : Fault
  final : Memory
  split : names = before ++ name :: after
  alike : RunsAlike s before done m mid here
  skipped : mid.skipped = done.skipped
  fails : compileDocument s name here = (.error fault, final)

/-- A failure is the first one also after a document that compiles. -/
def FirstFailure.cons {document : Document} (h : compileDocument s name m = (.ok document, m'))
    (first : FirstFailure s names (done.add name document) m') :
    FirstFailure s (name :: names) done m where
  before := name :: first.before
  name := first.name
  after := first.after
  mid := first.mid
  here := first.here
  fault := first.fault
  final := first.final
  split := congrArg (name :: ·) first.split
  alike policy := by rw [compileNames_cons_of_ok h, first.alike]
  skipped := first.skipped
  fails := first.fails

/-- Either all documents compile, or there is a first that fails. -/
theorem runsAlike_or_firstFailure (s : Sources) (names : List String) (done : Result)
    (m : Memory) :
    (∃ result m', RunsAlike s names done m result m' ∧ result.skipped = done.skipped) ∨
      Nonempty (FirstFailure s names done m) := by
  induction names generalizing done m with
  | nil => exact Or.inl ⟨done, m, fun _ => rfl, rfl⟩
  | cons name names ih =>
    rcases hc : compileDocument s name m with ⟨fault | document, m'⟩
    · exact Or.inr ⟨⟨[], name, names, done, m, fault, m', rfl, fun _ => rfl, rfl, hc⟩⟩
    · rcases ih (done.add name document) m' with ⟨result, m'', halike, hskipped⟩ | ⟨⟨first⟩⟩
      · refine Or.inl ⟨result, m'', fun policy => ?_, hskipped⟩
        rw [compileNames_cons_of_ok hc, halike]
      · exact Or.inr ⟨first.cons hc⟩

namespace FirstFailure

theorem abort (first : FirstFailure s names done m) :
    compileNames s .abort names done m = (.error first.fault, first.final) := by
  have hafter := compileNames_append (first.alike .abort) (first.name :: first.after)
  rw [← first.split] at hafter
  rw [hafter, compileNames_abort_cons_of_error first.fails]

theorem exists_skip (first : FirstFailure s names done m) :
    ∃ result rest, (compileNames s .skip names done m).1 = .ok result ∧
      result.skipped = done.skipped ++ first.name :: rest := by
  obtain ⟨result, m', -, rest, hrun, -, hskipped, -⟩ :=
    exists_compileNames_skip_split s first.after (first.mid.skip first.name) first.final
  have hafter := compileNames_append (first.alike .skip) (first.name :: first.after)
  rw [← first.split, compileNames_skip_cons_of_error first.fails, hrun] at hafter
  refine ⟨result, rest, congrArg Prod.fst hafter, ?_⟩
  rw [hskipped, Result.skip, first.skipped, List.append_assoc, List.singleton_append]

theorem exists_cause (first : FirstFailure s s.library.names done m) :
    ∃ cause, first.fault = .within first.name cause := by
  have hname : first.name ∈ first.before ++ first.name :: first.after :=
    List.mem_append_right _ List.mem_cons_self
  rw [← first.split] at hname
  exact Session.exists_within_of_compileDocument hname (congrArg Prod.fst first.fails)

end FirstFailure

/-- The policies differ at the first failure and nowhere before. From every memory the run that
skips ends well, and its two lists have each name of the library in one of them and in name order.
The run that aborts ends well exactly when nothing is skipped, and then with the same result and
memory. Otherwise it ends with the fault of the first document that is skipped, compiled from the
memory in which both runs are after the documents before it. -/
theorem policies_alike_until_failure (s : Sources) (m : Memory) :
    ∃ result m', compile s .skip m = (.ok result, m') ∧
      (result.documents.map Prod.fst).Pairwise (· < ·) ∧ result.skipped.Pairwise (· < ·) ∧
      (result.documents.map Prod.fst).Disjoint result.skipped ∧
      (result.documents.map Prod.fst ++ result.skipped).Perm s.library.names ∧
      ((∃ answer, (compile s .abort m).1 = .ok answer) ↔ result.skipped = []) ∧
      (result.skipped = [] → compile s .abort m = (.ok result, m')) ∧
      ∀ name rest, result.skipped = name :: rest →
        ∃ before after mid m₁ cause m₂, s.library.names = before ++ name :: after ∧
          (∀ policy, compileNames s policy before ⟨[], []⟩ m = (.ok mid, m₁)) ∧
          compileDocument s name m₁ = (.error (.within name cause), m₂) ∧
          compile s .abort m = (.error (.within name cause), m₂) := by
  obtain ⟨result, m', hrun, hdocuments, hskipped, hdisjoint, hperm⟩ :=
    exists_compile_skip_sorted s m
  refine ⟨result, m', hrun, hdocuments, hskipped, hdisjoint, hperm, ?_⟩
  rcases runsAlike_or_firstFailure s s.library.names ⟨[], []⟩ m with
    ⟨result', m'', halike, hnone⟩ | ⟨⟨first⟩⟩
  · obtain ⟨hresult, rfl⟩ := Prod.mk.inj (hrun.symm.trans (halike .skip))
    obtain rfl := Except.ok.inj hresult
    refine ⟨⟨fun _ => hnone, fun _ => ⟨result, congrArg Prod.fst (halike .abort)⟩⟩,
      fun _ => halike .abort, fun name rest hcons => ?_⟩
    exact absurd (hnone.symm.trans hcons) nofun
  · have habort := first.abort
    obtain ⟨cause, hcause⟩ := first.exists_cause
    obtain ⟨result', rest, hrun', hcons⟩ := first.exists_skip
    obtain rfl := Except.ok.inj ((congrArg Prod.fst hrun).symm.trans hrun')
    have hsome : result.skipped ≠ [] := fun hnil => absurd (hcons.symm.trans hnil) nofun
    refine ⟨⟨?_, fun hnil => absurd hnil hsome⟩, fun hnil => absurd hnil hsome,
      fun name rest' hcons' => ?_⟩
    · rintro ⟨answer, hanswer⟩
      exact absurd ((congrArg Prod.fst habort).symm.trans hanswer) nofun
    · obtain ⟨rfl, rfl⟩ := List.cons.inj (hcons.symm.trans hcons')
      exact ⟨first.before, first.after, first.mid, first.here, cause, first.final, first.split,
        first.alike, hcause ▸ first.fails, hcause ▸ habort⟩

end Compilation

end SectionCompiler
