import SectionCompiler.Proofs.Bindings

/-! Storing a template file. The sections go in one after another up to the first malformed one, so
a file with more than one section may be stored in part. A file whose only section, or whose first
section, is malformed leaves the store as it was. -/

namespace SectionCompiler.TemplateStore

variable {store store' : TemplateStore} {bs : List (String × Section)} {fault : Template.Malformed}
  {name : String} {body : Section} {arity : Arity}

theorem ofBody_eq_ok {t : Template} : Template.ofBody name body = .ok t ↔
    ∃ arity, Arity.ofBody body = .ok arity ∧ t = ⟨name, body, arity⟩ := by
  unfold Template.ofBody
  cases Arity.ofBody body with
  | error defect => simp
  | ok arity => simp [eq_comm]

theorem ofBody_eq_error : Template.ofBody name body = .error fault ↔
    ∃ defect, Arity.ofBody body = .error defect ∧ fault = ⟨name, defect⟩ := by
  unfold Template.ofBody
  cases Arity.ofBody body with
  | error defect => simp [eq_comm]
  | ok arity => simp

/-- Bodies are stored up to the first malformed one. -/
theorem addAll_eq_error (h : store.addAll bs = (.error fault, store')) :
    ∃ before name body after defect, bs = before ++ (name, body) :: after ∧
      store.addAll before = (.ok (), store') ∧ Arity.ofBody body = .error defect ∧
      fault = ⟨name, defect⟩ := by
  induction bs generalizing store with
  | nil => cases (Prod.mk.inj h).1
  | cons e bs ih =>
    obtain ⟨name, body⟩ := e
    rw [addAll, add] at h
    cases hbody : Template.ofBody name body with
    | error fault' =>
      rw [hbody] at h
      obtain ⟨hfault, rfl⟩ := Prod.mk.inj h
      obtain rfl := Except.error.inj hfault
      obtain ⟨defect, hdefect, rfl⟩ := ofBody_eq_error.1 hbody
      exact ⟨[], name, body, bs, defect, rfl, rfl, hdefect, rfl⟩
    | ok t =>
      rw [hbody] at h
      obtain ⟨before, n, b, after, defect, rfl, hbefore, hdefect, rfl⟩ := ih h
      refine ⟨(name, body) :: before, n, b, after, defect, rfl, ?_, hdefect, rfl⟩
      exact addAll_cons_eq_ok.2 ⟨t, hbody, hbefore⟩

theorem sound_of_addAll (h : store.addAll bs = (.ok (), store')) :
    ∀ e ∈ bs, ∃ arity, Arity.ofBody e.2 = .ok arity := by
  induction bs generalizing store with
  | nil => exact fun _ he => absurd he List.not_mem_nil
  | cons e bs ih =>
    obtain ⟨t, ht, h⟩ := addAll_cons_eq_ok.1 h
    obtain ⟨arity, harity, -⟩ := ofBody_eq_ok.1 ht
    exact List.forall_mem_cons.2 ⟨⟨arity, harity⟩, ih h⟩

/-- A store that differs from another in nothing but the templates of the bodies that names are
given. -/
structure Stores (Gives : String → Section → Prop) (store store' : TemplateStore) : Prop where
  stored : ∀ name body, Gives name body → ∃ arity, Arity.ofBody body = .ok arity ∧
    store'.get? name = some ⟨name, body, arity⟩
  kept : ∀ name, (∀ body, ¬ Gives name body) → store'.get? name = store.get? name

theorem Stores.congr {Gives Gives' : String → Section → Prop}
    (hgives : ∀ name body, Gives name body ↔ Gives' name body) (h : Stores Gives store store') :
    Stores Gives' store store' :=
  ⟨fun name body hname => h.stored name body ((hgives name body).2 hname),
    fun name hnone => h.kept name fun body hname => hnone body ((hgives name body).1 hname)⟩

theorem stores_addAll (hnames : (bs.map Prod.fst).Nodup)
    (h : store.addAll bs = (.ok (), store')) :
    Stores (fun name body => (name, body) ∈ bs) store store' := by
  refine ⟨fun name body hmem => ?_, fun name hnone => get?_addAll_of_notMem h fun hmem => ?_⟩
  · obtain ⟨before, after, rfl⟩ := List.append_of_mem hmem
    have hlast : name ∉ after.map Prod.fst := by
      rw [List.map_append, List.map_cons] at hnames
      exact (List.nodup_cons.1 (List.nodup_append.1 hnames).2.1).1
    obtain ⟨t, ht, hbody⟩ := get?_addAll_of_last h hlast
    obtain ⟨arity, harity, rfl⟩ := ofBody_eq_ok.1 hbody
    exact ⟨arity, harity, ht⟩
  · obtain ⟨⟨_, body⟩, he, rfl⟩ := List.mem_map.1 hmem
    exact hnone body he

/-- The names that the sections of a file have in the store. -/
def qualified (stem : String) (sections : List (String × Section)) : List (String × Section) :=
  sections.map fun e => (stem ++ ":" ++ e.1, e.2)

theorem bindings_of_single {stem heading : String} {file : Document}
    (h : file.entries = [(heading, body)]) :
    bindings stem file = [(stem, body), (stem ++ ":" ++ heading, body)] := by
  unfold bindings
  rw [h]
  rfl

theorem bindings_of_many {stem : String} {file : Document} (h : file.entries.length ≠ 1) :
    bindings stem file = qualified stem file.entries := by
  unfold bindings
  split
  · next hentries => exact absurd (congrArg List.length hentries) h
  · rfl

/-- A malformed section of a file leaves what was stored before it. The only section of a file
is stored under the name of the file first. -/
theorem addFile_eq_error {stem : String} {file : Document}
    (h : store.addFile stem file = (.error fault, store')) :
    ∃ before heading body after defect, file.entries = before ++ (heading, body) :: after ∧
      store.addAll (qualified stem before) = (.ok (), store') ∧
      Arity.ofBody body = .error defect ∧
      fault = ⟨if file.entries.length = 1 then stem else stem ++ ":" ++ heading, defect⟩ := by
  obtain ⟨before, name, body, after, defect, hsplit, hbefore, hdefect, rfl⟩ := addAll_eq_error h
  by_cases hlength : file.entries.length = 1
  · obtain ⟨⟨heading, only⟩, hentries⟩ := List.length_eq_one_iff.1 hlength
    rw [bindings_of_single hentries] at hsplit
    cases before with
    | nil =>
      obtain ⟨hfirst, -⟩ := List.cons.inj hsplit
      obtain ⟨rfl, rfl⟩ := Prod.mk.inj hfirst
      exact ⟨[], heading, only, [], defect, hentries, hbefore, hdefect, by rw [if_pos hlength]⟩
    | cons first rest =>
      -- both names have the same body, which is sound under the first of them
      obtain ⟨rfl, hrest⟩ := List.cons.inj hsplit
      obtain ⟨arity, harity⟩ := sound_of_addAll hbefore _ List.mem_cons_self
      have hmem : (name, body) ∈ [(stem ++ ":" ++ heading, only)] := by
        rw [hrest]
        exact List.mem_append_right _ List.mem_cons_self
      obtain ⟨-, rfl⟩ := Prod.mk.inj (List.mem_singleton.1 hmem)
      exact absurd (harity.symm.trans hdefect) nofun
  · rw [bindings_of_many hlength, qualified] at hsplit
    obtain ⟨before', rest, hentries, rfl, hrest⟩ := List.map_eq_append_iff.1 hsplit
    obtain ⟨⟨heading, only⟩, after', rfl, hfirst, -⟩ := List.map_eq_cons_iff.1 hrest
    obtain ⟨rfl, rfl⟩ := Prod.mk.inj hfirst
    exact ⟨before', heading, only, after', defect, hentries, hbefore, hdefect,
      by rw [if_neg hlength]⟩

theorem mem_qualified_iff {stem : String} {sections : List (String × Section)} :
    (name, body) ∈ qualified stem sections ↔
      ∃ heading, name = stem ++ ":" ++ heading ∧ (heading, body) ∈ sections := by
  simp only [qualified, List.mem_map, Prod.exists, Prod.mk.injEq]
  constructor
  · rintro ⟨heading, _, hmem, rfl, rfl⟩
    exact ⟨heading, rfl, hmem⟩
  · rintro ⟨heading, rfl, hmem⟩
    exact ⟨heading, body, hmem, rfl, rfl⟩

theorem nodup_qualified {stem : String} {file : Document} {before after : List (String × Section)}
    (h : file.entries = before ++ after) : ((qualified stem before).map Prod.fst).Nodup := by
  have hsub : (qualified stem before).Sublist (bindings stem file) := by
    have hall : (qualified stem before).Sublist (qualified stem file.entries) := by
      rw [h, qualified, qualified, List.map_append]
      exact List.sublist_append_left _ _
    by_cases hlength : file.entries.length = 1
    · obtain ⟨⟨heading, only⟩, hentries⟩ := List.length_eq_one_iff.1 hlength
      rw [bindings_of_single hentries]
      rw [hentries] at hall
      exact hall.trans (List.sublist_cons_self _ _)
    · rwa [bindings_of_many hlength]
  exact (nodup_bindings stem file).sublist (hsub.map Prod.fst)

/-- Storing a template file either stores all its sections, and nothing else, or stops at the first
malformed section and stores nothing but the sections before it. -/
theorem addFile_stores (store : TemplateStore) (stem : String) (file : Document) :
    (∃ store', store.addFile stem file = (.ok (), store') ∧
      Stores (fun name body =>
        (∃ heading, name = stem ++ ":" ++ heading ∧ file.get? heading = some body) ∨
          name = stem ∧ ∃ heading, file.entries = [(heading, body)]) store store') ∨
    ∃ before heading body after defect store',
      file.entries = before ++ (heading, body) :: after ∧
      Arity.ofBody body = .error defect ∧
      store.addFile stem file = (.error
        ⟨if file.entries.length = 1 then stem else stem ++ ":" ++ heading, defect⟩, store') ∧
      Stores (fun name body => ∃ heading, name = stem ++ ":" ++ heading ∧ (heading, body) ∈ before)
        store store' := by
  rcases h : store.addFile stem file with ⟨fault | _, store'⟩
  · right
    obtain ⟨before, heading, body, after, defect, hentries, hbefore, hdefect, rfl⟩ :=
      addFile_eq_error h
    refine ⟨before, heading, body, after, defect, store', hentries, hdefect, rfl, ?_⟩
    exact (stores_addAll (nodup_qualified hentries) hbefore).congr fun _ _ => mem_qualified_iff
  · left
    refine ⟨store', rfl, ?_⟩
    exact (stores_addAll (nodup_bindings stem file) h).congr fun _ _ => mem_bindings_iff

def barracks : Document :=
  Keyed.ofList [("Recruit", ⟨[("Armor", .scalar "5")]⟩),
    ("Veteran", ⟨[("Armor", .scalar "$\x7b1\x7d")]⟩)]

/-- A file that is refused may have been stored in part. -/
theorem refused_file_stored_in_part :
    ∃ fault store', TemplateStore.addFile ∅ "unit" barracks = (.error fault, store') ∧
      ∃ name, store'.get? name ≠ (∅ : TemplateStore).get? name := by
  have hrun : TemplateStore.addFile ∅ "unit" barracks =
      (.error ⟨"unit:Veteran", .missing 0⟩, Catalog.ofList
        [("unit:Recruit", ⟨"unit:Recruit", ⟨[("Armor", .scalar "5")]⟩, .finite 0⟩)]) := by
    decide +kernel
  exact ⟨_, _, hrun, "unit:Recruit", by decide⟩

end SectionCompiler.TemplateStore
