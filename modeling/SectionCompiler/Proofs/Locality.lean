import SectionCompiler.Proofs.Exploring
import SectionCompiler.Proofs.Soundness

/-! What the compiled form of a document depends on. It is the document itself and the documents of
the references that its sections lead to. Two libraries that agree on these give the document one
answer, whatever else they hold and whatever has been resolved before. -/

namespace SectionCompiler

open Resolution (Chain Below Faithful Memory)
open Relation Inheritance

namespace Inheritance

/-- A section of a document names a reference, or names one from which inheritance leads to it. -/
def Needs (l : Library) (name : String) (document : Document) (t : Reference) : Prop :=
  ∃ e ∈ document.entries, ∃ r, Names (some name) e.2 r ∧ ReflTransGen (Inherits l) r t

/-- What a document of the library needs is named by a place. -/
theorem exists_named_of_needs {l : Library} {name : String} {document : Document} {t : Reference}
    (hd : l.get? name = some document) (h : Needs l name document t) :
    ∃ r ∈ places l, t ∈ named l r := by
  obtain ⟨⟨heading, content⟩, he, r, hn, hreach⟩ := h
  have hplace : target? l ⟨name, heading⟩ = some content := by
    rw [target?, hd]
    exact Keyed.get?_eq_some_iff.2 he
  rcases hreach.cases_tail with rfl | ⟨p, -, hp⟩
  · exact ⟨_, mem_places_iff.2 ⟨content, hplace⟩, mem_named_iff.2 ⟨content, hplace, hn⟩⟩
  · obtain ⟨c, hc, -⟩ := id hp
    exact ⟨p, mem_places_iff.2 ⟨c, hc⟩, mem_named_iff.2 hp⟩

end Inheritance

namespace Direct

variable {l l' : Library} {templates : Option TemplateStore} {cap : Option Nat}

theorem seek_congr {r : Reference} (h : l.get? r.document = l'.get? r.document) :
    seek l r = seek l' r := by
  rw [seek, seek, h]

/-- A reference is followed alike in libraries that agree on every document that it leads to. -/
theorem follow_congr {chain : Chain} {r : Reference}
    (h : ∀ t, ReflTransGen (Inherits l) r t → l.get? t.document = l'.get? t.document) :
    follow l (folding templates) chain r cap = follow l' (folding templates) chain r cap := by
  induction chain using chain_induction l generalizing r with
  | step chain ih =>
    rw [follow_apply, follow_apply, ← seek_congr (h r .refl)]
    split
    · rfl
    · next hfresh =>
      split
      · rfl
      · cases hs : seek l r with
        | error fault => rfl
        | ok content =>
          have hcontent := seek_eq_ok_iff.1 hs
          have hr := mem_places_iff.2 ⟨content, hcontent⟩
          refine Below.eq_of_none_weak ((weakening _ cap cap).assemble_rel fun raw hraw => ?_)
          refine followRaw_below fun t ht => Or.inl (ih r hr hfresh fun u hu => ?_)
          exact h u (.head ⟨content, hcontent, raw, hraw, ht⟩ hu)

variable {s s' : Sources} {name : String} {document : Document}

/-- A document compiles alike in libraries that agree on it and on all that it needs. -/
theorem compileDocument_congr (htemplates : s.templates = s'.templates)
    (hd : s.library.get? name = some document) (hd' : s'.library.get? name = some document)
    (h : ∀ t, Needs s.library name document t →
      s.library.get? t.document = s'.library.get? t.document) :
    compileDocument s name cap = compileDocument s' name cap := by
  simp only [compileDocument, hd, hd']
  obtain ⟨l, templates, depth⟩ := s
  obtain ⟨l', templates', depth'⟩ := s'
  obtain rfl : templates = templates' := htemplates
  refine congrArg (Except.mapError _) (Below.eq_of_none_weak ?_)
  refine (weakening _ cap cap).resolveAll_rel fun e he => ?_
  refine (weakening _ cap cap).assemble_rel fun raw hraw => ?_
  refine followRaw_below fun t ht => Or.inl (follow_congr fun u hu => ?_)
  exact h u ⟨e, he, t, ⟨raw, hraw, ht⟩, hu⟩

end Direct

namespace Compilation

/-- What a result has to say of a document for which the answer stands. -/
def Result.Records (r : Result) (name : String) : Except Fault Document → Prop
  | .ok compiled => (∀ d, (name, d) ∈ r.documents ↔ d = compiled) ∧ name ∉ r.skipped
  | .error _ => (∀ d, (name, d) ∉ r.documents) ∧ name ∈ r.skipped

variable {s : Sources}

/-- A compilation that may leave documents out records for each the answer that it has without
memory. -/
theorem exists_compile_records (hlib : ∀ name ∈ s.library.names, IsPlain name)
    (hdepth : (places s.library).length < s.maxDepth) :
    ∃ result, (compile s .skip ∅).1 = .ok result ∧ ∀ name ∈ s.library.names,
      result.Records name (Direct.compileDocument s name none) := by
  obtain ⟨result, hr, h⟩ := mem_compileNames_skip hlib hdepth s.library.names ⟨[], []⟩
    (Resolution.faithful_empty s)
  refine ⟨result, hr, fun name hname => ?_⟩
  obtain ⟨hdone, hskip⟩ := h name
  unfold Result.Records
  cases hanswer : Direct.compileDocument s name none with
  | ok compiled => simp [hdone, hskip, hname, hanswer, eq_comm]
  | error fault => simp [hdone, hskip, hname, hanswer]

theorem compileDocument_run_eq_direct (hlib : ∀ name ∈ s.library.names, IsPlain name)
    (hdepth : (places s.library).length < s.maxDepth) {ops : List Session.Operation}
    (hops : ∀ op ∈ ops, op.IsPlain) (name : String) :
    (compileDocument s name (Session.run s ops ∅).2).1 = Direct.compileDocument s name none :=
  compileDocument_eq_direct hlib hdepth
    (Session.faithful_run hlib hops (Resolution.faithful_empty s)) name

/-- The compiled form of a document depends on nothing but what it inherits. Take two libraries
that hold the same document under a name and agree on every document that it needs, be it there or
not, with the same templates and with caps above their numbers of places. Then one answer stands
for the document in both: it is what the document is answered after any session, and what a
compilation of either library that may leave documents out records. -/
theorem compiles_alike_of_agree (s s' : Sources) (hlib : ∀ n ∈ s.library.names, IsPlain n)
    (hlib' : ∀ n ∈ s'.library.names, IsPlain n) (htemplates : s.templates = s'.templates)
    (hdepth : (places s.library).length < s.maxDepth)
    (hdepth' : (places s'.library).length < s'.maxDepth) (name : String) (document : Document)
    (hd : s.library.get? name = some document) (hd' : s'.library.get? name = some document)
    (hagree : ∀ t, Needs s.library name document t →
      s.library.get? t.document = s'.library.get? t.document) :
    ∃ answer : Except Fault Document,
      (∀ ops : List Session.Operation, (∀ op ∈ ops, op.IsPlain) →
        (compileDocument s name (Session.run s ops ∅).2).1 = answer ∧
        (compileDocument s' name (Session.run s' ops ∅).2).1 = answer) ∧
      ∃ result result', (compile s .skip ∅).1 = .ok result ∧ (compile s' .skip ∅).1 = .ok result' ∧
        result.Records name answer ∧ result'.Records name answer := by
  have hsame : Direct.compileDocument s name none = Direct.compileDocument s' name none :=
    Direct.compileDocument_congr htemplates hd hd' hagree
  refine ⟨Direct.compileDocument s name none, fun ops hops => ⟨?_, ?_⟩, ?_⟩
  · exact compileDocument_run_eq_direct hlib hdepth hops name
  · rw [hsame]
    exact compileDocument_run_eq_direct hlib' hdepth' hops name
  · obtain ⟨result, hr, hrecords⟩ := exists_compile_records hlib hdepth
    obtain ⟨result', hr', hrecords'⟩ := exists_compile_records hlib' hdepth'
    refine ⟨result, result', hr, hr', ?_, ?_⟩
    · exact hrecords name (Catalog.mem_names_iff.2 ⟨document, hd⟩)
    · rw [hsame]
      exact hrecords' name (Catalog.mem_names_iff.2 ⟨document, hd'⟩)

/-- The garage with an attic, which is compiled first and fails after it has had a section of the
garage resolved. -/
def garageWithAttic : Library :=
  Session.garage.insert "attic" <| Keyed.ofList [
    ("Chest", ⟨[("@Inherits", .list ["tank:Tank", "cellar:Shelf"])]⟩)]

def tanks : Document := Keyed.ofList [
  ("Tank", ⟨[("@Inherits", .list ["base:Unit", "./base:Unit"]), ("Armor", .scalar "50")]⟩),
  ("Scout", ⟨[("@Inherits", .scalar "this:Tank"), ("Speed", .scalar "9")]⟩)]

theorem compiles_alike_of_agree_attic :
    let s : Sources := ⟨Session.garage, none, 5⟩
    let s' : Sources := ⟨garageWithAttic, none, 6⟩
    (∀ n ∈ s.library.names, IsPlain n) ∧ (∀ n ∈ s'.library.names, IsPlain n) ∧
      s.templates = s'.templates ∧ (places s.library).length < s.maxDepth ∧
      (places s'.library).length < s'.maxDepth ∧ s.library.get? "tank" = some tanks ∧
      s'.library.get? "tank" = some tanks ∧
      (∀ t, Needs s.library "tank" tanks t →
        s.library.get? t.document = s'.library.get? t.document) ∧
      ∃ answer : Except Fault Document,
        (∀ ops : List Session.Operation, (∀ op ∈ ops, op.IsPlain) →
          (compileDocument s "tank" (Session.run s ops ∅).2).1 = answer ∧
          (compileDocument s' "tank" (Session.run s' ops ∅).2).1 = answer) ∧
        ∃ result result', (compile s .skip ∅).1 = .ok result ∧
          (compile s' .skip ∅).1 = .ok result' ∧
          result.Records "tank" answer ∧ result'.Records "tank" answer := by
  have hlib : ∀ n ∈ Session.garage.names, IsPlain n := by decide
  have hlib' : ∀ n ∈ garageWithAttic.names, IsPlain n := by decide
  have hd : Session.garage.get? "tank" = some tanks := by decide
  have hd' : garageWithAttic.get? "tank" = some tanks := by decide
  have hattic : ∀ r ∈ places Session.garage, ∀ t ∈ named Session.garage r,
      t.document ≠ "attic" := by decide +kernel
  have hagree : ∀ t, Needs Session.garage "tank" tanks t →
      Session.garage.get? t.document = garageWithAttic.get? t.document := by
    intro t ht
    obtain ⟨r, hr, hn⟩ := exists_named_of_needs hd ht
    rw [garageWithAttic, Catalog.get?_insert, if_neg (hattic r hr t hn)]
  exact ⟨hlib, hlib', rfl, by decide, by decide, hd, hd', hagree,
    compiles_alike_of_agree ⟨Session.garage, none, 5⟩ ⟨garageWithAttic, none, 6⟩ hlib hlib' rfl
      (by decide) (by decide) "tank" tanks hd hd' hagree⟩

end Compilation

end SectionCompiler
