import SectionCompiler.Build
import SectionCompiler.Proofs.Answers
import SectionCompiler.Proofs.Maps

/-! What becomes of the documents that are found when failures are skipped. A document is compiled
or reported as left out once it has been read; one that cannot be read is in neither list, unless
another document of its name has been read or the registry tables have taken that name. -/

namespace SectionCompiler

namespace Compilation

/-- The documents that a result speaks of. -/
def Result.Accounts (r : Result) (name : String) : Prop :=
  name ∈ r.documents.map Prod.fst ∨ name ∈ r.skipped

theorem Result.accounts_add {r : Result} {first name : String} {document : Document} :
    (r.add first document).Accounts name ↔ r.Accounts name ∨ name = first := by
  simp only [Accounts, add, List.map_append, List.mem_append, List.map_cons, List.map_nil,
    List.mem_singleton]
  exact or_right_comm

theorem Result.accounts_skip {r : Result} {first name : String} :
    (r.skip first).Accounts name ↔ r.Accounts name ∨ name = first := by
  simp only [Accounts, skip, List.mem_append, List.mem_singleton]
  exact or_assoc.symm

/-- A compilation that skips failures ends, and speaks of every document that it was given. -/
theorem exists_compileNames_skip (s : Sources) (names : List String) (done : Result)
    (m : Resolution.Memory) :
    ∃ result, (compileNames s .skip names done m).1 = .ok result ∧
      ∀ name, result.Accounts name ↔ done.Accounts name ∨ name ∈ names := by
  induction names generalizing done m with
  | nil => exact ⟨done, rfl, by simp⟩
  | cons first rest ih =>
    rcases hc : compileDocument s first m with ⟨answer, m'⟩
    cases answer with
    | ok document =>
      obtain ⟨result, hr, h⟩ := ih (done.add first document) m'
      refine ⟨result, by simpa only [compileNames, hc] using hr, fun name => ?_⟩
      rw [h, Result.accounts_add, List.mem_cons, or_assoc]
    | error fault =>
      obtain ⟨result, hr, h⟩ := ih (done.skip first) m'
      refine ⟨result, by simpa only [compileNames, hc] using hr, fun name => ?_⟩
      rw [h, Result.accounts_skip, List.mem_cons, or_assoc]

theorem exists_compile_skip (s : Sources) (m : Resolution.Memory) :
    ∃ result, (compile s .skip m).1 = .ok result ∧
      ∀ name, result.Accounts name ↔ name ∈ s.library.names := by
  obtain ⟨result, hr, h⟩ := exists_compileNames_skip s s.library.names ⟨[], []⟩ m
  refine ⟨result, hr, fun name => ?_⟩
  rw [h]
  simp [Result.Accounts]

end Compilation

namespace Discovery

/-- The file of a found document holds a document. -/
def Readable (d : Disk) (f : Found) : Prop := ∃ document, DocumentFile.read d f.path = .ok document

theorem loadFound_of_read {d : Disk} {f : Found} {document : Document}
    (h : DocumentFile.read d f.path = .ok document) (policy : Policy) (rest : List Found)
    (library : Library) :
    loadFound d policy (f :: rest) library =
      loadFound d policy rest (library.insert f.name document) := by
  rw [loadFound.eq_def]
  simp only [h]

theorem loadFound_skip {d : Disk} {f : Found} {fault : DocumentFile.Fault}
    (h : DocumentFile.read d f.path = .error fault) (rest : List Found) (library : Library) :
    loadFound d .skip (f :: rest) library = loadFound d .skip rest library := by
  rw [loadFound.eq_def]
  simp only [h]

/-- Loading that skips failures ends, and what it loads are the documents that can be read. -/
theorem exists_loadFound_skip (d : Disk) (found : List Found) (library : Library) :
    ∃ loaded, loadFound d .skip found library = .ok loaded ∧ ∀ name,
      name ∈ loaded.names ↔ name ∈ library.names ∨ ∃ f ∈ found, f.name = name ∧ Readable d f := by
  induction found generalizing library with
  | nil => exact ⟨library, rfl, by simp⟩
  | cons f rest ih =>
    cases hread : DocumentFile.read d f.path with
    | ok document =>
      obtain ⟨loaded, hl, h⟩ := ih (library.insert f.name document)
      have hf : Readable d f := ⟨document, hread⟩
      refine ⟨loaded, (loadFound_of_read hread _ _ _).trans hl, fun name => ?_⟩
      rw [h, Catalog.mem_names_insert]
      simp only [List.mem_cons, exists_eq_or_imp, hf, and_true, eq_comm (a := name), or_assoc,
        or_left_comm]
    | error fault =>
      obtain ⟨loaded, hl, h⟩ := ih library
      have hf : ¬ Readable d f := fun ⟨document, hd⟩ => absurd (hread.symm.trans hd) (by simp)
      refine ⟨loaded, (loadFound_skip hread _ _).trans hl, fun name => ?_⟩
      rw [h]
      simp only [List.mem_cons, exists_eq_or_imp, hf, and_false, false_or]

theorem loadDocuments_eq_ok {d : Disk} {root : String} {policy : Policy} {library : Library} :
    loadDocuments d root policy = .ok library ↔
      ∃ found, discover d root = .ok found ∧ loadFound d policy found ∅ = .ok library := by
  unfold loadDocuments
  simp only [bind_eq_ok, mapError_eq_ok]

theorem loadTemplates_eq_ok {d : Disk} {root : String} {store : TemplateStore} :
    loadTemplates d root = .ok store ↔
      ∃ found, discover d root = .ok found ∧ loadFoundTemplates d found ∅ = .ok store := by
  unfold loadTemplates
  simp only [bind_eq_ok, mapError_eq_ok]

end Discovery

namespace Build

variable {b : Build} {d : Disk}

theorem compile_eq_ok {text : String} {report : Report} :
    b.compile d = .ok (text, report) ↔ ∃ root s result, b.inputRoot = some root ∧
      b.sources d root = .ok s ∧ (Compilation.compile s b.policy ∅).1 = .ok result ∧
      text = Ini.render result.documents b.release ∧ report = b.report s result := by
  unfold compile
  cases b.inputRoot with
  | none => simp
  | some root =>
    simp only [bind_eq_ok, mapError_eq_ok, pure_eq_ok, Prod.mk.injEq, Option.some.injEq,
      exists_and_left, exists_eq_left']

theorem sources_eq_ok {root : String} {s : Sources} :
    b.sources d root = .ok s ↔ ∃ documents templates library,
      Discovery.loadDocuments d root b.policy = .ok documents ∧
      b.loadTemplates d = .ok templates ∧ b.withRegistry d documents = .ok library ∧
      s = ⟨library, templates, b.maxDepth⟩ := by
  unfold sources
  simp only [bind_eq_ok, mapError_eq_ok, pure_eq_ok, exists_and_left]

/-- The registry tables bring their own name into the library, when there are any. -/
theorem mem_names_withRegistry {documents library : Library}
    (h : b.withRegistry d documents = .ok library) (name : String) :
    name ∈ library.names ↔
      name ∈ documents.names ∨ b.registry ≠ [] ∧ name = Name.normalize b.registryName := by
  unfold withRegistry at h
  split at h
  · next hempty =>
    obtain rfl := Except.ok.inj h
    simp [hempty]
  · next hne =>
    obtain ⟨tables, -, hl⟩ := bind_eq_ok.1 h
    rw [pure_eq_ok.1 hl, Catalog.mem_names_insert]
    simp [hne, or_comm]

/-- A build that skips failures speaks of a document, as compiled into the output or as left out,
exactly when a file of that name could be read or the registry tables have that name. -/
theorem accounts_iff_readable {root text : String} {report : Report}
    (hroot : b.inputRoot = some root) (hpolicy : b.policy = .skip)
    (h : b.compile d = .ok (text, report)) :
    ∃ found s result, Discovery.discover d root = .ok found ∧ b.sources d root = .ok s ∧
      (Compilation.compile s .skip ∅).1 = .ok result ∧
      text = Ini.render result.documents b.release ∧ report.skipped = result.skipped ∧
      ∀ name, (name ∈ result.documents.map Prod.fst ∨ name ∈ report.skipped) ↔
        (∃ f ∈ found, f.name = name ∧ Discovery.Readable d f) ∨
          b.registry ≠ [] ∧ name = Name.normalize b.registryName := by
  obtain ⟨root', s, result, hroot', hs, hr, htext, rfl⟩ := compile_eq_ok.1 h
  obtain rfl := Option.some.inj (hroot.symm.trans hroot')
  obtain ⟨documents, templates, library, hload, -, hwith, rfl⟩ := sources_eq_ok.1 hs
  rw [hpolicy] at hload hr
  obtain ⟨found, hfound, hloaded⟩ := Discovery.loadDocuments_eq_ok.1 hload
  obtain ⟨loaded, hl, hnames⟩ := Discovery.exists_loadFound_skip d found ∅
  obtain rfl := Except.ok.inj (hloaded.symm.trans hl)
  obtain ⟨result', hr', haccounts⟩ := Compilation.exists_compile_skip ⟨library, templates, b.maxDepth⟩ ∅
  obtain rfl := Except.ok.inj (hr.symm.trans hr')
  refine ⟨found, _, result, hfound, hs, hr, htext, rfl, fun name => (haccounts name).trans ?_⟩
  rw [mem_names_withRegistry hwith, hnames]
  simp [Catalog.names]

/-- A folder with a file that is no text and a file that holds a document. -/
def shelf : Disk where
  root := .folder "in" (.file "bad.ini" (.bytes [0xff])
    (.file "good.ini" (.text "[S]\nK=1\n") .empty)) .empty
  here := []

def shelving : Build := { inputRoot := some "in", policy := .skip, release := true }

theorem discover_shelf :
    Discovery.discover shelf "in" =
      .ok [⟨"bad.ini", "in/bad.ini"⟩, ⟨"good.ini", "in/good.ini"⟩] := by
  have hnode : shelf.node "in" = .ok (.folder (.file "bad.ini" (.bytes [0xff])
      (.file "good.ini" (.text "[S]\nK=1\n") .empty))) := rfl
  have hbad : Discovery.foundAt "in" ["bad.ini"] = some ⟨"bad.ini", "in/bad.ini"⟩ := by
    decide +kernel
  have hgood : Discovery.foundAt "in" ["good.ini"] = some ⟨"good.ini", "in/good.ini"⟩ := by
    decide +kernel
  have hpublic : Discovery.publicFiles (.file "bad.ini" (.bytes [0xff])
      (.file "good.ini" (.text "[S]\nK=1\n") .empty)) = [["bad.ini"], ["good.ini"]] := by
    decide
  simp only [Discovery.discover, hnode, hpublic, List.filterMap_cons, hbad, hgood,
    List.filterMap_nil]
  rw [List.mergeSort_of_pairwise]
  decide +kernel

def shelved : Document := Keyed.ofList [("S", ⟨[("K", .scalar "1")]⟩)]

theorem sources_shelf :
    shelving.sources shelf "in" = .ok ⟨Catalog.ofList [("good.ini", shelved)], none, 64⟩ := by
  have hbad : DocumentFile.read shelf "in/bad.ini" = .error (.disk "in/bad.ini" .notText) := rfl
  have hgood : DocumentFile.read shelf "in/good.ini" = .ok shelved := rfl
  have hload : Discovery.loadDocuments shelf "in" .skip =
      .ok (Catalog.ofList [("good.ini", shelved)]) := by
    refine Discovery.loadDocuments_eq_ok.2 ⟨_, discover_shelf, ?_⟩
    rw [Discovery.loadFound_skip hbad, Discovery.loadFound_of_read hgood]
    rfl
  exact sources_eq_ok.2 ⟨_, _, _, hload, rfl, rfl, rfl⟩

theorem compile_shelf :
    shelving.compile shelf = .ok ("[S]\nK=1\n\n", ⟨1, 1, 0, [], none⟩) :=
  compile_eq_ok.2 ⟨"in", _, ⟨[("good.ini", shelved)], []⟩, rfl, sources_shelf, rfl, rfl, rfl⟩

theorem accounts_iff_readable_shelf :
    shelving.inputRoot = some "in" ∧ shelving.policy = .skip ∧
      shelving.compile shelf = .ok ("[S]\nK=1\n\n", ⟨1, 1, 0, [], none⟩) ∧
      ∃ found s result, Discovery.discover shelf "in" = .ok found ∧
        shelving.sources shelf "in" = .ok s ∧ (Compilation.compile s .skip ∅).1 = .ok result ∧
        "[S]\nK=1\n\n" = Ini.render result.documents shelving.release ∧ [] = result.skipped ∧
        ∀ name, (name ∈ result.documents.map Prod.fst ∨ name ∈ []) ↔
          (∃ f ∈ found, f.name = name ∧ Discovery.Readable shelf f) ∨
            shelving.registry ≠ [] ∧ name = Name.normalize shelving.registryName :=
  ⟨rfl, rfl, compile_shelf, accounts_iff_readable rfl rfl compile_shelf⟩

/-- A document that is found and cannot be read is neither compiled nor reported as left out. -/
theorem unreadable_document_not_accounted_for :
    let result : Compilation.Result := ⟨[("good.ini", shelved)], []⟩
    let report : Report := ⟨1, 1, 0, [], none⟩
    shelving.policy = .skip ∧
      (Discovery.discover shelf "in").map (·.map Discovery.Found.name) =
        .ok ["bad.ini", "good.ini"] ∧
      shelving.compile shelf = .ok (Ini.render result.documents true, report) ∧
      (∃ s, shelving.sources shelf "in" = .ok s ∧
        (Compilation.compile s .skip ∅).1 = .ok result) ∧
      ¬ ("bad.ini" ∈ result.documents.map Prod.fst ∨ "bad.ini" ∈ report.skipped) := by
  refine ⟨rfl, by rw [discover_shelf]; rfl, compile_shelf, ⟨_, sources_shelf, rfl⟩, by decide⟩

end Build

end SectionCompiler
