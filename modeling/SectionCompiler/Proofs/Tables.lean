import SectionCompiler.Proofs.Answers
import SectionCompiler.Proofs.Folding
import SectionCompiler.Proofs.Session
import SectionCompiler.Registry

/-! What stands in the registry tables. A table numbers the headings that its sources give, one
after another and without a gap. It is found under its own heading, unless a later table has the
same heading: then nothing of it is left. -/

namespace SectionCompiler

namespace Registry

variable {d : Disk} {library : Library} {source : String}

/-- The source is neither a pattern nor the name of a document, and so the path of a file. -/
def IsExternal (library : Library) (source : String) : Prop :=
  Glob.isPattern source = false ∧ library.get? source = none

/-- The headings of the document in a file, of which there are none when it cannot be read. -/
def headingsOfFile (d : Disk) (path : String) : List String :=
  match DocumentFile.read d path with
  | .ok document => document.keys
  | .error _ => []

theorem headings_of_isExternal {library : Library} {source : String}
    (h : IsExternal library source) :
    headings d library source = .ok (headingsOfFile d source) := by
  rw [headings, h.1, h.2, headingsOfFile]
  cases DocumentFile.read d source with
  | ok document => rfl
  | error fault => rfl

/-- What a source gives: a pattern the headings of all documents whose names match it, in name
order, a document name those of the document, and anything else those of a file. -/
inductive Gives (d : Disk) (library : Library) : String → List String → Prop where
  | pattern {source : String} {g : Glob} {matched : List (String × Document)} :
      Glob.isPattern source = true → Glob.parse source = .ok g → matched.Sublist library.entries →
      (∀ e ∈ library.entries, e ∈ matched ↔ g.matchesName e.1 = true) →
      Gives d library source (matched.flatMap fun e => e.2.keys)
  | document {source : String} {document : Document} :
      Glob.isPattern source = false → library.get? source = some document →
      Gives d library source document.keys
  | file {source : String} :
      IsExternal library source → Gives d library source (headingsOfFile d source)

theorem gives_of_headings {found : List String} (h : headings d library source = .ok found) :
    Gives d library source found := by
  cases hpattern : Glob.isPattern source with
  | true =>
    rw [headings, if_pos hpattern] at h
    cases hg : Glob.parse source with
    | error cause =>
      rw [hg] at h
      cases h
    | ok g =>
      rw [hg] at h
      obtain rfl := Except.ok.inj h
      refine .pattern hpattern hg List.filter_sublist fun e he => ?_
      rw [List.mem_filter, and_iff_right he]
  | false =>
    cases hdocument : library.get? source with
    | some document =>
      rw [headings, hpattern, hdocument] at h
      exact Except.ok.inj h ▸ .document hpattern hdocument
    | none =>
      have hexternal : IsExternal library source := ⟨hpattern, hdocument⟩
      rw [headings_of_isExternal hexternal] at h
      exact Except.ok.inj h ▸ .file hexternal

theorem Gives.eq_keys {document : Document} {found : List String}
    (h : Gives d library source found) (hpattern : Glob.isPattern source = false)
    (hdocument : library.get? source = some document) : found = document.keys := by
  cases h with
  | pattern hpattern' => exact absurd (hpattern'.symm.trans hpattern) nofun
  | document _ hdocument' => rw [Option.some.inj (hdocument'.symm.trans hdocument)]
  | file hexternal => exact absurd (hexternal.2.symm.trans hdocument) nofun

/-- The entry at each place has the number of the place, counted from the start. -/
theorem numbered_eq_mapIdx (start : Nat) (found : List String) :
    numbered start found =
      found.mapIdx fun i heading => (toString (start + i), .scalar heading) := by
  induction found generalizing start with
  | nil => rfl
  | cons heading rest ih =>
    rw [numbered, ih, List.mapIdx_cons]
    simp only [Nat.add_assoc, Nat.add_comm 1, Nat.add_zero]

/-- The entries of a table: what its sources give in their order, under consecutive numbers. -/
def IsRows (d : Disk) (library : Library) (t : RegistryTable) (rows : List Entry) : Prop :=
  ∃ parts, List.Forall₂ (Gives d library) t.sources parts ∧
    rows = parts.flatten.mapIdx fun i heading =>
      (toString (t.start.getD 1 + i), Value.scalar heading)

theorem isRows_of_tableSection {t : RegistryTable} {content : Section}
    (h : tableSection d library t = .ok content) : IsRows d library t content.entries := by
  obtain ⟨parts, hparts, hcontent⟩ := bind_eq_ok.1 h
  obtain rfl := pure_eq_ok.1 hcontent
  refine ⟨parts, (mapM_eq_ok.1 hparts).imp fun source found => gives_of_headings, ?_⟩
  exact numbered_eq_mapIdx _ _

theorem exists_tableSections_of_build {tables : List RegistryTable} {registry : Document}
    (h : build d library tables = .ok registry) :
    ∃ sections, registry = Keyed.ofList sections ∧ List.Forall₂ (fun t (e : String × Section) =>
      e.1 = t.target ∧ tableSection d library t = .ok e.2) tables sections := by
  obtain ⟨sections, hsections, hregistry⟩ := bind_eq_ok.1 h
  refine ⟨sections, pure_eq_ok.1 hregistry, (mapM_eq_ok.1 hsections).imp fun t e he => ?_⟩
  obtain ⟨content, hcontent, hpair⟩ := bind_eq_ok.1 he
  obtain rfl := pure_eq_ok.1 hpair
  exact ⟨rfl, hcontent⟩

theorem exists_sections_of_build {tables : List RegistryTable} {registry : Document}
    (h : build d library tables = .ok registry) :
    ∃ sections, registry = Keyed.ofList sections ∧ List.Forall₂ (fun t (e : String × Section) =>
      e.1 = t.target ∧ IsRows d library t e.2.entries) tables sections := by
  obtain ⟨sections, hregistry, hsections⟩ := exists_tableSections_of_build h
  exact ⟨sections, hregistry, hsections.imp fun t e he => he.imp_right isRows_of_tableSection⟩

/-- The last table of each heading is complete. The registry has the headings of its tables in the
order in which they first come, and under each heading the entries of the last table that has it:
those that its sources give, in their order and under consecutive numbers. -/
theorem build_numbers_last {tables : List RegistryTable} {registry : Document}
    (h : build d library tables = .ok registry) :
    registry.keys = (tables.map RegistryTable.target).eraseDups ∧
      ∀ before t after, tables = before ++ t :: after → (∀ u ∈ after, u.target ≠ t.target) →
        ∃ content, registry.get? t.target = some content ∧ IsRows d library t content.entries := by
  obtain ⟨sections, rfl, hsections⟩ := exists_sections_of_build h
  refine ⟨?_, fun before t after htables hlast => ?_⟩
  · rw [Keyed.keys_ofList, map_fst_of_forall₂ (hsections.imp fun t e he => he.1)]
  · rw [htables] at hsections
    obtain ⟨before', ⟨target, content⟩, after', rfl, ⟨htarget, hrows⟩, hafter⟩ :=
      exists_split_of_forall₂ hsections
    obtain rfl : target = t.target := htarget
    refine ⟨content, Keyed.get?_ofList_of_last ?_, hrows⟩
    rw [map_fst_of_forall₂ (hafter.imp fun u e he => he.1)]
    intro hmem
    obtain ⟨u, hu, hsame⟩ := List.mem_map.1 hmem
    exact hlast u hu hsame

def bare : Disk := ⟨.empty, []⟩

/-- Two tables that share a document, which the one names by a pattern. -/
def rosters : List RegistryTable :=
  [⟨"All", ["tank", "b*"], none⟩, ⟨"Bases", ["base"], some 10⟩]

def rostered : Document :=
  Keyed.ofList [
    ("All", ⟨[("1", .scalar "Tank"), ("2", .scalar "Scout"), ("3", .scalar "Unit"),
      ("4", .scalar "Loop")]⟩),
    ("Bases", ⟨[("10", .scalar "Unit"), ("11", .scalar "Loop")]⟩)]

theorem build_numbers_last_rosters :
    build bare Session.garage rosters = .ok rostered ∧
      rostered.keys = (rosters.map RegistryTable.target).eraseDups ∧
      ∀ before t after, rosters = before ++ t :: after → (∀ u ∈ after, u.target ≠ t.target) →
        ∃ content, rostered.get? t.target = some content ∧
          IsRows bare Session.garage t content.entries := by
  have hbuild : build bare Session.garage rosters = .ok rostered := by decide +kernel
  exact ⟨hbuild, build_numbers_last hbuild⟩

/-- Of two tables with one heading only the later one is left, whatever its numbers are. -/
theorem earlier_table_lost :
    let tables : List RegistryTable :=
      [⟨"Units", ["tank"], none⟩, ⟨"Units", ["base"], some 10⟩]
    let registry : Document :=
      Keyed.ofList [("Units", ⟨[("10", .scalar "Unit"), ("11", .scalar "Loop")]⟩)]
    build bare Session.garage tables = .ok registry ∧
      ¬ ∀ t ∈ tables, ∃ content rows, registry.get? t.target = some content ∧
        IsRows bare Session.garage t rows ∧ rows.Sublist content.entries := by
  refine ⟨by rfl, fun h => ?_⟩
  obtain ⟨content, rows, hcontent, ⟨parts, hparts, rfl⟩, hrows⟩ := h _ List.mem_cons_self
  obtain ⟨found, rest, hfound, hrest, rfl⟩ := List.forall₂_cons_left_iff.1 hparts
  obtain rfl := List.forall₂_nil_left_iff.1 hrest
  obtain rfl := hfound.eq_keys (by decide) rfl
  obtain rfl := Option.some.inj hcontent
  exact absurd hrows (by decide)

end Registry

end SectionCompiler
