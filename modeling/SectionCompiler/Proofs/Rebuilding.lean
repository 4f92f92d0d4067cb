import SectionCompiler.Proofs.Accounting
import SectionCompiler.Proofs.Anchoring
import SectionCompiler.Proofs.Finding

/-! Running a build again. Nothing keeps a build from reading what it has written: an output file
among the documents or the templates, or among the sources of a registry table, is read by the next
run. A build that does not read its output gives the same report again and changes nothing. -/

namespace SectionCompiler

open Discovery (IsFound discover discover_again loadFound_congr loadFoundTemplates_congr)

namespace Discovery

variable {d d' : Disk} {root : String} {New : List String → Prop}

/-- Documents that have been loaded are loaded again when nothing new is found. -/
theorem loadDocuments_again (hnamed : d.root.IsWellNamed) (h : Disk.Grows New d d')
    (hfile : ∀ way, New way → ∃ content, d'.root.find? way = some (.file content))
    (hnew : ∀ way, IsFound d' root way → ¬ New way) {policy : Policy} {library : Library}
    (hload : loadDocuments d root policy = .ok library) :
    loadDocuments d' root policy = .ok library := by
  obtain ⟨found, hfound, hlibrary⟩ := loadDocuments_eq_ok.1 hload
  obtain ⟨hfound', hread⟩ := discover_again hnamed h hfile hnew hfound
  refine loadDocuments_eq_ok.2 ⟨found, hfound', ?_⟩
  rw [loadFound_congr hread, hlibrary]

theorem loadTemplates_again (hnamed : d.root.IsWellNamed) (h : Disk.Grows New d d')
    (hfile : ∀ way, New way → ∃ content, d'.root.find? way = some (.file content))
    (hnew : ∀ way, IsFound d' root way → ¬ New way) {store : TemplateStore}
    (hload : loadTemplates d root = .ok store) : loadTemplates d' root = .ok store := by
  obtain ⟨found, hfound, hstore⟩ := loadTemplates_eq_ok.1 hload
  obtain ⟨hfound', hread⟩ := discover_again hnamed h hfile hnew hfound
  refine loadTemplates_eq_ok.2 ⟨found, hfound', ?_⟩
  rw [loadFoundTemplates_congr hread, hstore]

end Discovery

namespace Build

variable {b : Build} {d d' : Disk}

/-- A source of the build's registry tables that is the path of a file. -/
def ReadsFile (b : Build) (d : Disk) (source : String) : Prop :=
  ∃ root ∈ b.inputRoot, ∃ library, Discovery.loadDocuments d root b.policy = .ok library ∧
    (∃ t ∈ b.registry, source ∈ t.sources) ∧ Registry.IsExternal library source

/-- A folder that the build searches, for documents or for templates. -/
def Searches (b : Build) (root : String) : Prop :=
  b.inputRoot = some root ∨ b.templateRoot = some root

theorem run_eq_ok {report : Report} : b.run d = (.ok report, d') ↔
    ∃ path text, b.outputPath = some path ∧ b.compile d = .ok (text, report) ∧
      Output.write d path text = (.ok (), d') := by
  unfold run
  rcases b.outputPath with _ | path
  · exact iff_of_false (fun h => nomatch (Prod.mk.inj h).1) fun ⟨_, _, h, _⟩ => nomatch h
  · rcases b.compile d with fault | ⟨text, report'⟩
    · exact iff_of_false (fun h => nomatch (Prod.mk.inj h).1) fun ⟨_, _, _, h, _⟩ => nomatch h
    · rcases hw : Output.write d path text with ⟨_ | _, _⟩ <;> simp [hw]

/-- A build compiles the same again in a tree that has grown by files that it does not read. -/
theorem compile_again {New : List String → Prop} (hnamed : d.root.IsWellNamed)
    (h : Disk.Grows New d d')
    (hfile : ∀ way, New way → ∃ content, d'.root.find? way = some (.file content))
    (hnew : ∀ root, b.Searches root → ∀ way, IsFound d' root way → ¬ New way)
    (hsame : ∀ source, b.ReadsFile d source →
      Registry.headingsOfFile d' source = Registry.headingsOfFile d source)
    {text : String} {report : Report} (hcompile : b.compile d = .ok (text, report)) :
    b.compile d' = .ok (text, report) := by
  obtain ⟨root, s, result, hroot, hsources, hresult, rfl, rfl⟩ := compile_eq_ok.1 hcompile
  obtain ⟨documents, templates, library, hdocuments, htemplates, hregistry, rfl⟩ :=
    sources_eq_ok.1 hsources
  have hdocuments' := Discovery.loadDocuments_again hnamed h hfile (hnew root (Or.inl hroot))
    hdocuments
  have htemplates' : b.loadTemplates d' = b.loadTemplates d := by
    unfold loadTemplates at htemplates ⊢
    cases htroot : b.templateRoot with
    | none => rfl
    | some troot =>
      rw [htroot] at htemplates
      dsimp only at htemplates ⊢
      cases hload : Discovery.loadTemplates d troot with
      | error fault =>
        rw [hload] at htemplates
        cases htemplates
      | ok store =>
        rw [Discovery.loadTemplates_again hnamed h hfile (hnew troot (Or.inr htroot)) hload]
  have hsources' : b.sources d' root = b.sources d root := by
    apply sources_congr (hdocuments'.trans hdocuments.symm) htemplates'
    intro library hlibrary t ht source hs hexternal
    exact hsame source ⟨root, hroot, library, hlibrary, ⟨t, ht, hs⟩, hexternal⟩
  exact compile_eq_ok.2 ⟨root, _, result, hroot, hsources'.trans hsources, hresult, rfl, rfl⟩

/-- A build that does not read its output gives the same report again and changes nothing. -/
theorem run_again {report : Report} (hnamed : d.root.IsWellNamed)
    (hrun : b.run d = (.ok report, d'))
    (hout : ∀ path p, b.outputPath = some path → d'.place path = .ok p →
      ∀ root, b.Searches root → ¬ IsFound d' root p.way)
    (hsame : ∀ source, b.ReadsFile d source →
      Registry.headingsOfFile d' source = Registry.headingsOfFile d source) :
    b.run d' = (.ok report, d') := by
  obtain ⟨path, text, hpath, hcompile, hwrite⟩ := run_eq_ok.1 hrun
  obtain ⟨p, hp, hfile, hgrows, hagain⟩ := Output.grows_write hwrite
  have hcompile' : b.compile d' = .ok (text, report) := by
    apply compile_again hnamed hgrows _ _ hsame hcompile
    · rintro way rfl
      exact ⟨_, hfile⟩
    · rintro root hroot way hfound rfl
      exact hout path p hpath hp root hroot hfound
  exact run_eq_ok.2 ⟨path, text, hpath, hcompile', hagain⟩

def slipway : Disk where
  root := .folder "in" (.file "a.ini" (.text "[S]\nK=1\n") .empty)
    (.folder "tpl" (.file "t.ini" (.text "[T]\n$\x7b0\x7d=x\n") .empty)
      (.file "ext.ini" (.text "[A]\n") .empty))
  here := []

/-- The output goes below the documents, but into a private folder. -/
def launching : Build :=
  { inputRoot := some "in", outputPath := some "in/@gen/all.ini", templateRoot := some "tpl",
    registry := [⟨"Table", ["ext.ini"], none⟩], release := true }

def launched : Disk where
  root := .folder "in" (.file "a.ini" (.text "[S]\nK=1\n")
      (.folder "@gen" (.file "all.ini" (.text "[S]\nK=1\n\n[Table]\n1=A\n\n") .empty) .empty))
    (.folder "tpl" (.file "t.ini" (.text "[T]\n$\x7b0\x7d=x\n") .empty)
      (.file "ext.ini" (.text "[A]\n") .empty))
  here := []

theorem run_again_launching :
    let report : Report := ⟨2, 2, 2, [], some "in/@gen/all.ini"⟩
    slipway.root.IsWellNamed ∧ launching.run slipway = (.ok report, launched) ∧
      (∀ path p, launching.outputPath = some path → launched.place path = .ok p →
        ∀ root, launching.Searches root → ¬ IsFound launched root p.way) ∧
      (∀ source, launching.ReadsFile slipway source →
        Registry.headingsOfFile launched source = Registry.headingsOfFile slipway source) ∧
      launching.run launched = (.ok report, launched) := by
  intro report
  have hnamed : slipway.root.IsWellNamed := by decide
  have hrun : launching.run slipway = (.ok report, launched) := by decide +kernel
  have hpath : launched.place "in/@gen/all.ini" =
      .ok (Disk.placeAt launched.root ["in", "@gen", "all.ini"]) := rfl
  have hin : launched.place "in" = .ok (Disk.placeAt launched.root ["in"]) := rfl
  have htpl : launched.place "tpl" = .ok (Disk.placeAt launched.root ["tpl"]) := rfl
  have hout : ∀ path p, launching.outputPath = some path → launched.place path = .ok p →
      ∀ root, launching.Searches root → ¬ IsFound launched root p.way := by
    rintro path p hp hplace root hroot ⟨q, v, hq, hway, -, hpublic, -⟩
    obtain rfl := Option.some.inj hp
    obtain rfl := Except.ok.inj (hpath.symm.trans hplace)
    rcases hroot with hroot | hroot
    · obtain rfl := Option.some.inj hroot
      obtain rfl := Except.ok.inj (hin.symm.trans hq)
      obtain rfl : ["@gen", "all.ini"] = v := (List.cons.inj hway).2
      exact absurd (hpublic "@gen" List.mem_cons_self) (by decide)
    · obtain rfl := Option.some.inj hroot
      obtain rfl := Except.ok.inj (htpl.symm.trans hq)
      exact absurd (List.cons.inj hway).1 (by decide)
  have hsame : ∀ source, launching.ReadsFile slipway source →
      Registry.headingsOfFile launched source = Registry.headingsOfFile slipway source := by
    rintro source ⟨_, _, _, _, ⟨t, ht, hs⟩, _⟩
    obtain rfl := List.mem_singleton.1 ht
    obtain rfl := List.mem_singleton.1 hs
    decide +kernel
  exact ⟨hnamed, hrun, hout, hsame, run_again hnamed hrun hout hsame⟩

def drydock : Disk := ⟨.folder "in" .empty (.folder "tpl" .empty .empty), []⟩

/-- The output goes among the documents, among the templates, or to a file that a registry table
reads. -/
def looping : List Build :=
  [{ inputRoot := some "in", outputPath := some "in/out.ini", release := true },
    { inputRoot := some "in", outputPath := some "tpl/out.ini", templateRoot := some "tpl",
      registry := [⟨"T", [], none⟩], release := true },
    { inputRoot := some "in", outputPath := some "out.ini",
      registry := [⟨"T", ["out.ini"], none⟩], release := true }]

/-- An output that is read back makes the next run another one: of other documents, of other
templates, or with another text. -/
theorem output_read_back :
    drydock.root.IsWellNamed ∧ ∀ b ∈ looping, ∃ report, (b.run drydock).1 = .ok report ∧
      b.run (b.run drydock).2 ≠ (.ok report, (b.run drydock).2) := by
  refine ⟨by decide, ?_⟩
  simp only [looping, List.forall_mem_cons]
  refine ⟨⟨⟨0, 0, 0, [], some "in/out.ini"⟩, ?_, ?_⟩, ⟨⟨1, 1, 0, [], some "tpl/out.ini"⟩, ?_, ?_⟩,
    ⟨⟨1, 1, 0, [], some "out.ini"⟩, ?_, ?_⟩, fun _ h => absurd h List.not_mem_nil⟩
  all_goals decide +kernel

end Build

end SectionCompiler
