import SectionCompiler.Action
import SectionCompiler.Proofs.Absolute
import SectionCompiler.Proofs.Tables

/-! What a build owes to the working directory. Settings that were loaded by an absolute path hold
absolute paths, so a build of them reads and writes alike from every working directory, but for the
sources of registry tables that are relative paths of files. -/

namespace SectionCompiler

open Disk (moveAnswer)

variable {d d' : Disk} {here : List String}

theorem DocumentFile.read_moveTo {path : String} (h : Path.isAbsolute path = true) :
    DocumentFile.read (d.moveTo here) path = DocumentFile.read d path := by
  rw [DocumentFile.read, Disk.read_moveTo h, DocumentFile.read]

namespace Discovery

variable {root : String}

theorem isAbsolute_foldl_join (way : List String) (h : Path.isAbsolute root = true) :
    Path.isAbsolute (way.foldl Path.join root) = true := by
  induction way generalizing root with
  | nil => exact h
  | cons segment way ih => exact ih (Path.isAbsolute_join h segment)

theorem isAbsolute_foundAt {way : List String} {f : Found} (h : Path.isAbsolute root = true)
    (hf : foundAt root way = some f) : Path.isAbsolute f.path = true := by
  obtain ⟨-, rfl⟩ := Option.ite_some_none_eq_some.1 hf
  exact isAbsolute_foldl_join way h

theorem isAbsolute_of_discover {found : List Found} (h : Path.isAbsolute root = true)
    (hd : discover d root = .ok found) : ∀ f ∈ found, Path.isAbsolute f.path = true := by
  unfold discover at hd
  split at hd
  · cases hd
  · obtain rfl := Except.ok.inj hd
    exact fun f hf => isAbsolute_foundAt h (Option.mem_toList.1 hf)
  · obtain rfl := Except.ok.inj hd
    intro f hf
    obtain ⟨way, -, hway⟩ := List.mem_filterMap.1 (List.mem_mergeSort.1 hf)
    exact isAbsolute_foundAt h hway

theorem discover_moveTo (h : Path.isAbsolute root = true) :
    discover (d.moveTo here) root = discover d root := by
  rw [discover, Disk.node_moveTo h, discover]

theorem loadFound_congr {found : List Found}
    (h : ∀ f ∈ found, DocumentFile.read d' f.path = DocumentFile.read d f.path)
    (policy : Policy) (library : Library) :
    loadFound d' policy found library = loadFound d policy found library := by
  induction found generalizing library with
  | nil => rfl
  | cons f rest ih =>
    obtain ⟨hf, hrest⟩ := List.forall_mem_cons.1 h
    rw [loadFound.eq_def, loadFound.eq_def d]
    simp only [hf, ih hrest]

theorem loadFoundTemplates_congr {found : List Found}
    (h : ∀ f ∈ found, DocumentFile.read d' f.path = DocumentFile.read d f.path)
    (store : TemplateStore) :
    loadFoundTemplates d' found store = loadFoundTemplates d found store := by
  induction found generalizing store with
  | nil => rfl
  | cons f rest ih =>
    obtain ⟨hf, hrest⟩ := List.forall_mem_cons.1 h
    rw [loadFoundTemplates.eq_def, loadFoundTemplates.eq_def d]
    simp only [hf, ih hrest]

theorem loadDocuments_moveTo (h : Path.isAbsolute root = true) (policy : Policy) :
    loadDocuments (d.moveTo here) root policy = loadDocuments d root policy := by
  rw [loadDocuments, discover_moveTo h, loadDocuments]
  cases hd : discover d root with
  | error fault => rfl
  | ok found =>
    exact loadFound_congr
      (fun f hf => DocumentFile.read_moveTo (isAbsolute_of_discover h hd f hf)) policy ∅

theorem loadTemplates_moveTo (h : Path.isAbsolute root = true) :
    loadTemplates (d.moveTo here) root = loadTemplates d root := by
  rw [loadTemplates, discover_moveTo h, loadTemplates]
  cases hd : discover d root with
  | error fault => rfl
  | ok found =>
    exact loadFoundTemplates_congr
      (fun f hf => DocumentFile.read_moveTo (isAbsolute_of_discover h hd f hf)) ∅

end Discovery

namespace Registry

theorem headings_congr {library : Library} {source : String}
    (h : IsExternal library source → headingsOfFile d' source = headingsOfFile d source) :
    headings d' library source = headings d library source := by
  by_cases hexternal : IsExternal library source
  · rw [headings_of_isExternal hexternal, headings_of_isExternal hexternal, h hexternal]
  · unfold headings
    split
    · rfl
    · next hpattern =>
      cases hdocument : library.get? source with
      | some document => rfl
      | none => exact absurd ⟨by simpa using hpattern, hdocument⟩ hexternal

/-- The tables are the same when the external files among their sources have the same headings. -/
theorem build_congr {library : Library} {tables : List RegistryTable}
    (h : ∀ t ∈ tables, ∀ source ∈ t.sources, IsExternal library source →
      headingsOfFile d' source = headingsOfFile d source) :
    build d' library tables = build d library tables := by
  have htables : ∀ t ∈ tables, tableSection d' library t = tableSection d library t := by
    intro t ht
    rw [tableSection, tableSection, mapM_congr fun source hs => headings_congr (h t ht source hs)]
  rw [build, build, mapM_congr fun t ht => by rw [htables t ht]]

end Registry

namespace Build

/-- The paths of a build are absolute, those of registry sources aside. -/
structure IsAnchored (b : Build) : Prop where
  input : ∀ root ∈ b.inputRoot, Path.isAbsolute root = true
  output : ∀ path ∈ b.outputPath, Path.isAbsolute path = true
  templates : ∀ root ∈ b.templateRoot, Path.isAbsolute root = true

/-- A source of the build's registry tables that is the relative path of a file. -/
def ReadsRelative (b : Build) (d : Disk) (source : String) : Prop :=
  ∃ root ∈ b.inputRoot, ∃ library, Discovery.loadDocuments d root b.policy = .ok library ∧
    (∃ t ∈ b.registry, source ∈ t.sources) ∧ Registry.IsExternal library source ∧
    Path.isAbsolute source = false

variable {b : Build}

theorem loadTemplates_moveTo (h : b.IsAnchored) :
    b.loadTemplates (d.moveTo here) = b.loadTemplates d := by
  unfold loadTemplates
  cases hroot : b.templateRoot with
  | none => rfl
  | some root =>
    dsimp only
    rw [Discovery.loadTemplates_moveTo (h.templates root hroot)]

theorem sources_congr {root : String}
    (hdocuments : Discovery.loadDocuments d' root b.policy =
      Discovery.loadDocuments d root b.policy)
    (htemplates : b.loadTemplates d' = b.loadTemplates d)
    (hsame : ∀ library, Discovery.loadDocuments d root b.policy = .ok library →
      ∀ t ∈ b.registry, ∀ source ∈ t.sources, Registry.IsExternal library source →
        Registry.headingsOfFile d' source = Registry.headingsOfFile d source) :
    b.sources d' root = b.sources d root := by
  rw [sources, sources, hdocuments, htemplates]
  cases hlibrary : Discovery.loadDocuments d root b.policy with
  | error fault => rfl
  | ok library =>
    have hregistry : b.withRegistry d' library = b.withRegistry d library := by
      rw [withRegistry, withRegistry, Registry.build_congr (hsame library hlibrary)]
    simp only [Except.mapError, bind, Except.bind, hregistry]

theorem sources_moveTo (h : b.IsAnchored) {root : String} (hroot : b.inputRoot = some root)
    (hsame : ∀ source, b.ReadsRelative d source →
      Registry.headingsOfFile (d.moveTo here) source = Registry.headingsOfFile d source) :
    b.sources (d.moveTo here) root = b.sources d root := by
  refine sources_congr (Discovery.loadDocuments_moveTo (h.input root hroot) b.policy)
    (loadTemplates_moveTo h) fun library hlibrary t ht source hs hexternal => ?_
  cases habs : Path.isAbsolute source with
  | true => rw [Registry.headingsOfFile, DocumentFile.read_moveTo habs, Registry.headingsOfFile]
  | false => exact hsame source ⟨root, hroot, library, hlibrary, ⟨t, ht, hs⟩, hexternal, habs⟩

theorem compile_moveTo (h : b.IsAnchored)
    (hsame : ∀ source, b.ReadsRelative d source →
      Registry.headingsOfFile (d.moveTo here) source = Registry.headingsOfFile d source) :
    b.compile (d.moveTo here) = b.compile d := by
  unfold compile
  cases hroot : b.inputRoot with
  | none => rfl
  | some root =>
    dsimp only
    rw [sources_moveTo h hroot hsame]

theorem run_moveTo (h : b.IsAnchored) (hopen : d.IsOpen) (hopen' : (d.moveTo here).IsOpen)
    (hsame : ∀ source, b.ReadsRelative d source →
      Registry.headingsOfFile (d.moveTo here) source = Registry.headingsOfFile d source) :
    b.run (d.moveTo here) = moveAnswer here (b.run d) := by
  unfold run
  cases hpath : b.outputPath with
  | none => rfl
  | some path =>
    dsimp only
    rw [compile_moveTo h hsame]
    rcases b.compile d with fault | ⟨text, report⟩
    · rfl
    · dsimp only
      rw [Output.write_moveTo (h.output path hpath) hopen hopen']
      rcases Output.write d path text with ⟨_ | _, _⟩ <;> rfl

end Build

namespace Settings

theorem isAnchored_of_anchored {base : String} (h : Path.isAbsolute base = true) (s : Settings) :
    (Build.ofSettings (s.anchored base)).IsAnchored where
  input root hroot := Option.mem_some.1 hroot ▸ Path.isAbsolute_join h s.inputRoot
  output path hpath := Option.mem_some.1 hpath ▸ Path.isAbsolute_join h s.outputPath
  templates root hroot := by
    obtain ⟨given, -, rfl⟩ := Option.map_eq_some_iff.1 hroot
    exact Path.isAbsolute_join h given

theorem exists_extension_of_fileLayer {path content : String} {layer : Layer}
    (h : fileLayer path content = .ok layer) : ∃ extension, Path.extension? path = some extension := by
  unfold fileLayer at h
  split at h
  · cases h
  · next extension he => exact ⟨extension, he⟩

/-- The paths of settings are taken from the folder of their file, whose name has an extension. -/
theorem exists_anchored_of_ofContent {e : Environment} {path content : String} {strict : Bool}
    {settings : Settings} (h : ofContent e path content strict = .ok settings) :
    (∃ extension, Path.extension? path = some extension) ∧
      ∃ s : Settings, settings = s.anchored ((Path.parent? path).getD "") := by
  unfold ofContent at h
  split at h
  · simp only [bind_eq_ok, mapError_eq_ok, pure_eq_ok] at h
    obtain ⟨-, -, -, -, layer, hlayer, s, -, hs⟩ := h
    exact ⟨exists_extension_of_fileLayer hlayer, s, hs⟩
  · simp only [bind_eq_ok, mapError_eq_ok, pure_eq_ok] at h
    obtain ⟨-, -, layer, hlayer, s, -, hs⟩ := h
    exact ⟨exists_extension_of_fileLayer hlayer, s, hs⟩

/-- Settings that are loaded by an absolute path have absolute paths. -/
theorem isAnchored_of_load {e : Environment} {path : String} {strict : Bool} {settings : Settings}
    (h : Path.isAbsolute path = true) (hload : load d e path strict = .ok settings) :
    (Build.ofSettings settings).IsAnchored := by
  obtain ⟨content, -, hcontent⟩ := bind_eq_ok.1 hload
  obtain ⟨⟨extension, hextension⟩, s, rfl⟩ := exists_anchored_of_ofContent hcontent
  obtain ⟨base, hbase⟩ := Path.exists_parent?_of_extension? h hextension
  rw [hbase]
  exact isAnchored_of_anchored (Path.isAbsolute_parent? h hbase) s

theorem load_moveTo {path : String} (h : Path.isAbsolute path = true) (e : Environment)
    (strict : Bool) : load (d.moveTo here) e path strict = load d e path strict := by
  rw [load, Disk.read_moveTo h, load]

end Settings

namespace Action

variable {e : Environment} {path : String} {release strict : Bool}

theorem prepare_moveTo (h : Path.isAbsolute path = true) :
    prepare e (d.moveTo here) (some path) none release strict =
      prepare e d (some path) none release strict := by
  rw [prepare, prepare, settingsPath, settingsPath]
  simp only [bind, Except.bind, Settings.load_moveTo h]

theorem isAnchored_of_prepare {b : Build} (h : Path.isAbsolute path = true)
    (hb : prepare e d (some path) none release strict = .ok b) : b.IsAnchored := by
  unfold prepare settingsPath at hb
  simp only [bind_eq_ok, mapError_eq_ok, pure_eq_ok] at hb
  obtain ⟨_, hpath, settings, hload, rfl⟩ := hb
  obtain rfl := Except.ok.inj hpath
  obtain ⟨hinput, houtput, htemplates⟩ := Settings.isAnchored_of_load h hload
  exact ⟨hinput, houtput, htemplates⟩

theorem runBuild_moveTo {b : Build} (h : b.IsAnchored) (hopen : d.IsOpen)
    (hopen' : (d.moveTo here).IsOpen)
    (hsame : ∀ source, b.ReadsRelative d source →
      Registry.headingsOfFile (d.moveTo here) source = Registry.headingsOfFile d source)
    (dryRun : Bool) :
    runBuild b (d.moveTo here) dryRun = moveAnswer here (runBuild b d dryRun) := by
  unfold runBuild
  rw [Build.compile_moveTo h hsame, Build.run_moveTo h hopen hopen' hsame]
  cases dryRun with
  | true => rfl
  | false => rcases b.run d with ⟨_ | _, _⟩ <;> rfl

/-- A build does not depend on the working directory, but for the relative paths of files that
registry tables read. Started from any two folders of one tree with the settings file of an
absolute path, it comes to the same and leaves the same tree, when each such file gives the same
headings from both. -/
theorem build_independent_of_here (e : Environment) (root : Folder) (here here' : List String)
    (path : String) (release strict dryRun : Bool) (habsolute : Path.isAbsolute path = true)
    (hopen : (⟨root, here⟩ : Disk).IsOpen) (hopen' : (⟨root, here'⟩ : Disk).IsOpen)
    (hsame : ∀ b, prepare e ⟨root, here⟩ (some path) none release strict = .ok b →
      ∀ source, b.ReadsRelative ⟨root, here⟩ source →
        Registry.headingsOfFile ⟨root, here'⟩ source = Registry.headingsOfFile ⟨root, here⟩ source) :
    let action := Action.build (some path) none release strict dryRun
    (perform e ⟨root, here'⟩ action).1 = (perform e ⟨root, here⟩ action).1 ∧
      (perform e ⟨root, here'⟩ action).2.root = (perform e ⟨root, here⟩ action).2.root := by
  intro action
  have hmove : perform e ⟨root, here'⟩ action = moveAnswer here' (perform e ⟨root, here⟩ action) := by
    change perform e (Disk.moveTo ⟨root, here⟩ here') action = _
    simp only [perform, action, prepare_moveTo habsolute]
    cases hb : prepare e ⟨root, here⟩ (some path) none release strict with
    | error fault => rfl
    | ok b =>
      exact runBuild_moveTo (isAnchored_of_prepare habsolute hb) hopen hopen' (hsame b hb) dryRun
  rw [hmove]
  exact ⟨rfl, rfl⟩

/-- A project whose registry table reads a file by a relative path. A file of that name is in the
project and at the root, but not in the folder beside the project. -/
def hangar : Folder :=
  .folder "proj"
    (.file "iniweave.toml"
      (.text ("input_root = \"in\"\noutput_path = \"out.ini\"\n" ++
        "[[registry]]\ntarget = \"T\"\nsources = [\"ext.ini\"]\n"))
      (.folder "in" .empty (.file "ext.ini" (.text "[A]\n") .empty)))
    (.folder "beside" .empty (.file "ext.ini" (.text "[A]\nk=1\n") .empty))

theorem build_independent_of_here_hangar :
    let path := "/proj/iniweave.toml"
    let action := Action.build (some path) none true true false
    Path.isAbsolute path = true ∧ (⟨hangar, ["proj"]⟩ : Disk).IsOpen ∧
      (⟨hangar, []⟩ : Disk).IsOpen ∧
      (∀ b, prepare {} ⟨hangar, ["proj"]⟩ (some path) none true true = .ok b →
        ∀ source, b.ReadsRelative ⟨hangar, ["proj"]⟩ source →
          Registry.headingsOfFile ⟨hangar, []⟩ source =
            Registry.headingsOfFile ⟨hangar, ["proj"]⟩ source) ∧
      (perform {} ⟨hangar, []⟩ action).1 = (perform {} ⟨hangar, ["proj"]⟩ action).1 ∧
      (perform {} ⟨hangar, []⟩ action).2.root = (perform {} ⟨hangar, ["proj"]⟩ action).2.root := by
  intro path action
  have hopen : (⟨hangar, ["proj"]⟩ : Disk).IsOpen := ⟨_, rfl⟩
  have hopen' : (⟨hangar, []⟩ : Disk).IsOpen := ⟨_, rfl⟩
  have htables : (prepare {} ⟨hangar, ["proj"]⟩ (some path) none true true).toOption.map
      Build.registry = some [⟨"T", ["ext.ini"], none⟩] := by decide +kernel
  have hsame : ∀ b, prepare {} ⟨hangar, ["proj"]⟩ (some path) none true true = .ok b →
      ∀ source, b.ReadsRelative ⟨hangar, ["proj"]⟩ source →
        Registry.headingsOfFile ⟨hangar, []⟩ source =
          Registry.headingsOfFile ⟨hangar, ["proj"]⟩ source := by
    rintro b hb source ⟨_, _, _, _, ⟨t, ht, hs⟩, _, _⟩
    rw [hb] at htables
    rw [Option.some.inj htables, List.mem_singleton] at ht
    obtain rfl := List.mem_singleton.1 (ht ▸ hs)
    decide +kernel
  exact ⟨by decide, hopen, hopen', hsame,
    build_independent_of_here {} hangar ["proj"] [] path true true false (by decide) hopen hopen'
      hsame⟩

/-- The file is there when the build is started in the project, and missing when it is started
beside it. -/
theorem preview_depends_on_here :
    let action := Action.build (some "/proj/iniweave.toml") none true true true
    (⟨hangar, ["proj"]⟩ : Disk).IsOpen ∧ (⟨hangar, ["beside"]⟩ : Disk).IsOpen ∧
      (perform {} ⟨hangar, ["proj"]⟩ action).1.toOption = some (.preview "[T]\n1=A\n\n") ∧
      (perform {} ⟨hangar, ["beside"]⟩ action).1.toOption = some (.preview "[T]\n\n") := by
  intro action
  refine ⟨⟨_, rfl⟩, ⟨_, rfl⟩, ?_, ?_⟩
  · decide +kernel
  · decide +kernel

end Action

end SectionCompiler
