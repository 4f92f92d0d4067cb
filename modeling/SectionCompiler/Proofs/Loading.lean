import Mathlib.Data.List.Perm.Subperm
import SectionCompiler.Proofs.Accounting
import SectionCompiler.Proofs.Bindings
import SectionCompiler.Proofs.Canonical
import SectionCompiler.Proofs.Searching

/-! What is left of the found files when they are loaded. A document stays under its name when no
other file has that name, and names without backslashes are the relative paths of their files. Of
the templates that go in under one name the one of the last file stays. -/

namespace SectionCompiler

namespace Catalog

variable {α : Type} {es : List (String × α)} {name : String}

theorem ofList_concat (es : List (String × α)) (e : String × α) :
    ofList (es ++ [e]) = (ofList es).insert e.1 e.2 := by
  rw [ofList, List.foldl_append]
  rfl

theorem mem_names_ofList : name ∈ (ofList es).names ↔ name ∈ es.map Prod.fst := by
  induction es using List.reverseRecOn with
  | nil => rfl
  | append_singleton es e ih =>
    rw [ofList_concat, mem_names_insert, ih, List.map_append, List.mem_append, or_comm,
      List.map_singleton, List.mem_singleton]

theorem get?_ofList_of_last {before after : List (String × α)} {value : α}
    (h : name ∉ after.map Prod.fst) :
    (ofList (before ++ (name, value) :: after)).get? name = some value := by
  induction after using List.reverseRecOn with
  | nil => rw [ofList_concat, get?_insert, if_pos rfl]
  | append_singleton after e ih =>
    rw [List.map_append, List.map_singleton, List.mem_append, List.mem_singleton, not_or] at h
    rw [← List.cons_append, ← List.append_assoc, ofList_concat, get?_insert, if_neg h.2, ih h.1]

/-- A map has as many entries as came in exactly when no name came in twice. -/
theorem size_ofList_iff : (ofList es).size = es.length ↔ (es.map Prod.fst).Nodup := by
  have hlength : (ofList es).size = (ofList es).names.length := (List.length_map _).symm
  constructor
  · intro h
    have hsub : (ofList es).names.Subperm (es.map Prod.fst) :=
      List.subperm_of_subset (nodup_names _) fun _ => mem_names_ofList.1
    have hperm := hsub.perm_of_length_le (by rw [List.length_map, ← h, hlength])
    exact hperm.nodup_iff.1 (nodup_names _)
  · intro h
    have hperm := (List.perm_ext_iff_of_nodup (nodup_names _) h).2 fun _ => mem_names_ofList
    rw [hlength, hperm.length_eq, List.length_map]

end Catalog

/-! ### Names of relative paths -/

theorem IsName.segment {name : String} (h : IsName name) : Name.IsName name.toList :=
  ⟨fun hempty => h.1 (String.toList_eq_nil_iff.1 hempty),
    fun hdot => h.2.1 (String.toList_inj.1 hdot), fun hdots => h.2.2.1 (String.toList_inj.1 hdots)⟩

namespace Path

variable {way : List String}

theorem backslash_notMem_ofWay (h : ∀ name ∈ way, '\\' ∉ name.toList) :
    '\\' ∉ (ofWay way).toList := by
  intro hm
  rw [toList_ofWay] at hm
  rcases Name.mem_intercalate hm with hm | ⟨segment, hsegment, hm⟩
  · exact absurd hm (by decide)
  · obtain ⟨name, hname, rfl⟩ := List.mem_map.1 hsegment
    exact h name hname hm

theorem isName_of_mem_splitOn_ofWay (hway : ∀ name ∈ way, IsName name) (hne : way ≠ []) :
    ∀ segment ∈ (ofWay way).toList.splitOn '/', Name.IsName segment := by
  rw [splitOn_ofWay hway hne]
  exact List.forall_mem_map.2 fun name hname => (hway name hname).segment

theorem splitFront_ofWay (hway : ∀ name ∈ way, IsName name) (hne : way ≠ []) :
    splitFront (ofWay way).toList = ([], (ofWay way).toList) := by
  have hsegments := isName_of_mem_splitOn_ofWay hway hne
  unfold splitFront
  split
  · next rest heq =>
    rw [heq] at hsegments
    exact absurd rfl (hsegments [] (by simp [List.splitOn_cons_eq_if_modifyHead])).1
  · next heq =>
    rw [heq] at hsegments
    exact absurd rfl (hsegments ['.'] List.mem_cons_self).2.1
  · next rest heq =>
    rw [heq] at hsegments
    exact absurd rfl (hsegments ['.'] (by simp [List.splitOn_cons_eq_if_modifyHead])).2.1
  · rfl

theorem components_ofWay (hway : ∀ name ∈ way, IsName name) (hne : way ≠ []) :
    components (ofWay way) = way.map .name := by
  simp only [components, splitFront_ofWay hway hne, splitOn_ofWay hway hne, List.filterMap_map]
  refine (List.nil_append _).trans ?_
  rw [← List.filterMap_eq_map]
  exact List.filterMap_congr fun name hname => componentOf?_name (hway name hname)

end Path

namespace Name

variable {way : List String}

theorem foldl_follow_of_isName {rooted : Bool} {segments : List (List Char)}
    (h : ∀ segment ∈ segments, IsName segment) (done : List (List Char)) :
    segments.foldl (follow rooted) done = segments.reverse ++ done := by
  induction segments generalizing done with
  | nil => rfl
  | cons segment rest ih =>
    obtain ⟨⟨hempty, hdot, hup⟩, hrest⟩ := List.forall_mem_cons.1 h
    rw [List.foldl_cons, ih hrest, follow.eq_def, if_neg (not_or.2 ⟨hempty, hdot⟩), if_neg hup,
      List.reverse_cons, List.append_assoc, List.singleton_append]

theorem map_slashed_of_notMem {cs : List Char} (h : '\\' ∉ cs) : cs.map slashed = cs := by
  refine (List.map_congr_left fun c hc => ?_).trans (List.map_id cs)
  rw [slashed, if_neg, id]
  rintro rfl
  exact h hc

theorem segments_ofWay (hway : ∀ name ∈ way, SectionCompiler.IsName name) (hne : way ≠ []) :
    segments (Path.ofWay way).toList = way.map String.toList := by
  have hnames := Path.isName_of_mem_splitOn_ofWay hway hne
  rw [segments, foldl_follow_of_isName hnames, List.append_nil, List.reverse_reverse,
    Path.splitOn_ofWay hway hne]

/-- A relative path without backslashes is a normal form. -/
theorem normalize_ofWay (hway : ∀ name ∈ way, SectionCompiler.IsName name) (hne : way ≠ [])
    (hslash : ∀ name ∈ way, '\\' ∉ name.toList) :
    normalize (Path.ofWay way) = Path.ofWay way := by
  have hrooted : isRooted (Path.ofWay way).toList = false := by
    simpa [isRooted, Path.isAbsolute] using Path.not_isAbsolute_ofWay hway
  have hempty : (Path.ofWay way).toList ≠ [] := by
    intro hnil
    have hnames := Path.isName_of_mem_splitOn_ofWay hway hne
    rw [hnil] at hnames
    exact (hnames [] List.mem_cons_self).1 rfl
  rw [normalize, normalizeChars, map_slashed_of_notMem (Path.backslash_notMem_ofWay hslash)]
  simp only [segments_ofWay hway hne, ← Path.toList_ofWay, hrooted, hempty, Bool.false_eq_true,
    if_false, String.ofList_toList]

end Name

theorem Template.body_of_ofBody {name : String} {body : Section} {t : Template}
    (h : Template.ofBody name body = .ok t) : t.body = body := by
  unfold Template.ofBody at h
  split at h
  · exact Except.ok.inj h ▸ rfl
  · cases h

namespace Discovery

variable {d : Disk} {root : String} {inside : Folder} {found : List Found}

theorem documentName_ofWay {way : List String} (hway : ∀ name ∈ way, IsName name) (hne : way ≠ [])
    (hslash : ∀ name ∈ way, '\\' ∉ name.toList) :
    documentName (Path.ofWay way) = Path.ofWay way := by
  have htexts : (way.map Component.name).map Component.text = way := by
    rw [List.map_map]
    exact List.map_id way
  have hjoined : String.intercalate "/" way = Path.ofWay way := rfl
  rw [documentName, Path.components_ofWay hway hne, htexts, hjoined,
    Name.normalize_ofWay hway hne hslash]

theorem nodup_names_of_discover (hnamed : d.root.IsWellNamed)
    (hroot : d.node root = .ok (.folder inside)) (hfound : discover d root = .ok found)
    (hslash : ∀ way, IsDocument inside way → ∀ name ∈ way, '\\' ∉ name.toList) :
    (found.map Found.name).Nodup := by
  obtain ⟨found', hfound', ⟨ways, hnodup, hways, hperm⟩, -, -⟩ := discover_exact hnamed hroot
  obtain rfl := Except.ok.inj (hfound.symm.trans hfound')
  have hnames : ∀ way ∈ ways, (∀ name ∈ way, IsName name) ∧ way ≠ [] := by
    intro way hway
    have hpublic := ((hways way).1 hway).mem_publicFiles
    exact ⟨((isWellNamed_of_node hnamed hroot).of_mem_publicFiles hpublic).2,
      ne_nil_of_mem_publicFiles hpublic⟩
  have hname : ∀ way ∈ ways, (listed root way).name = Path.ofWay way := fun way hway =>
    documentName_ofWay (hnames way hway).1 (hnames way hway).2 (hslash way ((hways way).1 hway))
  rw [(hperm.map Found.name).nodup_iff, List.map_map]
  refine hnodup.map_on fun v hv w hw heq => ?_
  apply Path.ofWay_inj (hnames v hv).1 (hnames w hw).1 (hnames v hv).2 (hnames w hw).2
  rw [← hname v hv, ← hname w hw]
  exact heq

/-! ### Documents -/

/-- The file of a found document holds the document, which goes in under the name of the file. -/
def Reads (d : Disk) (f : Found) (e : String × Document) : Prop :=
  e.1 = f.name ∧ DocumentFile.read d f.path = .ok e.2

theorem exists_of_loadFound_abort {library loaded : Library}
    (h : loadFound d .abort found library = .ok loaded) :
    ∃ es, List.Forall₂ (Reads d) found es ∧
      loaded = es.foldl (fun m e => m.insert e.1 e.2) library := by
  induction found generalizing library with
  | nil => exact ⟨[], .nil, (Except.ok.inj h).symm⟩
  | cons f rest ih =>
    cases hread : DocumentFile.read d f.path with
    | ok document =>
      rw [loadFound_of_read hread] at h
      obtain ⟨es, hes, rfl⟩ := ih h
      exact ⟨(f.name, document) :: es, .cons ⟨rfl, hread⟩ hes, rfl⟩
    | error fault =>
      rw [loadFound.eq_def] at h
      simp [hread] at h

theorem exists_of_loadDocuments_abort {library : Library} (hfound : discover d root = .ok found)
    (h : loadDocuments d root .abort = .ok library) :
    ∃ es, List.Forall₂ (Reads d) found es ∧ library = Catalog.ofList es := by
  obtain ⟨found', hfound', hload⟩ := loadDocuments_eq_ok.1 h
  obtain rfl := Except.ok.inj (hfound.symm.trans hfound')
  exact exists_of_loadFound_abort hload

/-- Loading keeps every document exactly when no two files have one name. -/
theorem size_loadDocuments_iff {library : Library} (hfound : discover d root = .ok found)
    (h : loadDocuments d root .abort = .ok library) :
    library.size = found.length ↔ (found.map Found.name).Nodup := by
  obtain ⟨es, hes, rfl⟩ := exists_of_loadDocuments_abort hfound h
  rw [← map_fst_of_forall₂ (hes.imp fun _ _ h => h.1), hes.length_eq]
  exact Catalog.size_ofList_iff

/-- The last file of a name has its document there. -/
theorem get?_loadDocuments {library : Library} {before after : List Found} {f : Found}
    (hfound : discover d root = .ok (before ++ f :: after))
    (h : loadDocuments d root .abort = .ok library) (hlast : ∀ g ∈ after, g.name ≠ f.name) :
    ∃ document, DocumentFile.read d f.path = .ok document ∧
      library.get? f.name = some document := by
  obtain ⟨es, hes, rfl⟩ := exists_of_loadDocuments_abort hfound h
  obtain ⟨before', ⟨name, document⟩, after', rfl, ⟨rfl, hread⟩, hafter⟩ :=
    exists_split_of_forall₂ hes
  refine ⟨document, hread, Catalog.get?_ofList_of_last ?_⟩
  rw [map_fst_of_forall₂ (hafter.imp fun _ _ h => h.1)]
  intro hmem
  obtain ⟨g, hg, hname⟩ := List.mem_map.1 hmem
  exact hlast g hg hname

/-! ### Templates -/

/-- A template file gives a body to a name: the body of each section to `file:section`, and the
body of its only section to `file` as well. -/
def Registers (d : Disk) (f : Found) (name : String) (body : Section) : Prop :=
  ∃ file, DocumentFile.read d f.path = .ok file ∧
    ((∃ heading, name = Name.stem f.name ++ ":" ++ heading ∧ file.get? heading = some body) ∨
      name = Name.stem f.name ∧ ∃ heading, file.entries = [(heading, body)])

def Puts (d : Disk) (f : Found) (bodies : List (String × Section)) : Prop :=
  ∃ file, DocumentFile.read d f.path = .ok file ∧
    bodies = TemplateStore.bindings (Name.stem f.name) file

theorem Puts.mem_iff {f : Found} {bodies : List (String × Section)} (h : Puts d f bodies)
    {name : String} {body : Section} : (name, body) ∈ bodies ↔ Registers d f name body := by
  obtain ⟨file, hread, rfl⟩ := h
  rw [TemplateStore.mem_bindings_iff, Registers, hread]
  simp

theorem exists_of_loadFoundTemplates {store loaded : TemplateStore}
    (h : loadFoundTemplates d found store = .ok loaded) :
    ∃ parts, List.Forall₂ (Puts d) found parts ∧ store.addAll parts.flatten = (.ok (), loaded) := by
  induction found generalizing store with
  | nil => exact ⟨[], .nil, congrArg _ (Except.ok.inj h)⟩
  | cons f rest ih =>
    rw [loadFoundTemplates.eq_def] at h
    dsimp only at h
    cases hread : DocumentFile.read d f.path with
    | error fault =>
      rw [hread] at h
      cases h
    | ok file =>
      rw [hread] at h
      dsimp only at h
      split at h
      · cases h
      · next between hadd =>
        obtain ⟨parts, hparts, hrest⟩ := ih h
        refine ⟨_ :: parts, .cons ⟨file, hread, rfl⟩ hparts, ?_⟩
        exact TemplateStore.addAll_append_eq_ok.2 ⟨between, hadd, hrest⟩

theorem notMem_of_puts {parts : List (List (String × Section))} {name : String}
    (h : List.Forall₂ (Puts d) found parts)
    (hnone : ∀ g ∈ found, ∀ body, ¬ Registers d g name body) : name ∉ parts.flatten.map Prod.fst := by
  induction h with
  | nil => exact List.not_mem_nil
  | cons hputs _ ih =>
    obtain ⟨hfirst, hrest⟩ := List.forall_mem_cons.1 hnone
    rw [List.flatten_cons, List.map_append, List.mem_append]
    rintro (hmem | hmem)
    · obtain ⟨⟨_, body⟩, he, rfl⟩ := List.mem_map.1 hmem
      exact hfirst body (hputs.mem_iff.1 he)
    · exact ih hrest hmem

/-- The last file that gives a body to a name has its template there. -/
theorem get?_loadFoundTemplates {before after : List Found} {f : Found} {store : TemplateStore}
    (h : loadFoundTemplates d (before ++ f :: after) ∅ = .ok store) {name : String}
    {body : Section} (hname : Registers d f name body)
    (hlast : ∀ g ∈ after, ∀ other, ¬ Registers d g name other) :
    ∃ t, store.get? name = some t ∧ Template.ofBody name body = .ok t := by
  obtain ⟨parts, hparts, hadd⟩ := exists_of_loadFoundTemplates h
  obtain ⟨before', bodies, after', rfl, hputs, hafter⟩ := exists_split_of_forall₂ hparts
  obtain ⟨front, back, rfl⟩ := List.append_of_mem (hputs.mem_iff.2 hname)
  have hback : name ∉ back.map Prod.fst := by
    obtain ⟨file, -, hbodies⟩ := hputs
    have hnodup := TemplateStore.nodup_bindings (Name.stem f.name) file
    rw [← hbodies, List.map_append, List.map_cons, List.nodup_append] at hnodup
    exact (List.nodup_cons.1 hnodup.2.1).1
  rw [List.flatten_append, List.flatten_cons, List.append_assoc, List.cons_append,
    ← List.append_assoc] at hadd
  refine TemplateStore.get?_addAll_of_last hadd ?_
  rw [List.map_append, List.mem_append]
  exact not_or.2 ⟨hback, notMem_of_puts hafter hlast⟩

/-- What is left of the files below a folder when they are loaded. -/
structure KeepsFiles (d : Disk) (root : String) (inside : Folder) (found : List Found) : Prop where
  /-- If no name on the way to a document has a backslash, no two documents have one name. -/
  distinct : (∀ way, IsDocument inside way → ∀ name ∈ way, '\\' ∉ name.toList) →
    (found.map Found.name).Nodup
  /-- There are as many documents as files exactly when no two files have one name. -/
  size : ∀ library, loadDocuments d root .abort = .ok library →
    (library.size = found.length ↔ (found.map Found.name).Nodup)
  /-- Under a name stands the document of the last file that has the name. -/
  document : ∀ library, loadDocuments d root .abort = .ok library → ∀ before f after,
    found = before ++ f :: after → (∀ g ∈ after, g.name ≠ f.name) →
      ∃ document, DocumentFile.read d f.path = .ok document ∧
        library.get? f.name = some document
  /-- Every section of a template file is registered. -/
  registers : ∀ store, loadTemplates d root = .ok store → ∀ f ∈ found, ∃ file,
    DocumentFile.read d f.path = .ok file ∧ ∀ heading body, file.get? heading = some body →
      Registers d f (Name.stem f.name ++ ":" ++ heading) body
  /-- Under a registered name stands the body from the last file that registers the name. -/
  last : ∀ store, loadTemplates d root = .ok store → ∀ before f after name body,
    found = before ++ f :: after → Registers d f name body →
      (∀ g ∈ after, ∀ other, ¬ Registers d g name other) →
        ∃ t, store.get? name = some t ∧ t.body = body

/-- Loading loses no file to another one, but where two files give something one name. -/
theorem loading_keeps_files (hnamed : d.root.IsWellNamed)
    (hroot : d.node root = .ok (.folder inside)) :
    ∃ found, discover d root = .ok found ∧ KeepsFiles d root inside found := by
  obtain ⟨found, hfound, -⟩ := discover_exact hnamed hroot
  have hstore : ∀ store, loadTemplates d root = .ok store →
      loadFoundTemplates d found ∅ = .ok store := by
    intro store h
    obtain ⟨found', hfound', hload⟩ := loadTemplates_eq_ok.1 h
    rwa [Except.ok.inj (hfound.symm.trans hfound')]
  refine ⟨found, hfound, ⟨nodup_names_of_discover hnamed hroot hfound, ?_, ?_, ?_, ?_⟩⟩
  · exact fun library h => size_loadDocuments_iff hfound h
  · exact fun library h before f after hsplit => get?_loadDocuments (hsplit ▸ hfound) h
  · intro store h f hf
    obtain ⟨parts, hparts, -⟩ := exists_of_loadFoundTemplates (hstore store h)
    obtain ⟨before, after, rfl⟩ := List.append_of_mem hf
    obtain ⟨_, _, _, -, ⟨file, hread, -⟩, -⟩ := exists_split_of_forall₂ hparts
    exact ⟨file, hread, fun heading body hbody => ⟨file, hread, Or.inl ⟨heading, rfl, hbody⟩⟩⟩
  · intro store h before f after name body hsplit hname hlast
    have hload := hstore store h
    rw [hsplit] at hload
    obtain ⟨t, ht, hbody⟩ := get?_loadFoundTemplates hload hname hlast
    exact ⟨t, ht, Template.body_of_ofBody hbody⟩

/-- Two documents that differ in the kind of slash, and two template files that differ in their
endings. -/
def depot : Disk where
  root :=
    .folder "in" (.folder "a" (.file "b.ini" (.text "[S]\nK=1\n") .empty) <|
      .file "a\\b.ini" (.text "[S]\nK=2\n") .empty) <|
    .folder "tpl" (.file "armor.ini" (.text "[Light]\nArmor=10\n") <|
      .file "armor.toml" (.text "[Light]\nArmor = 20\n") .empty) .empty
  here := []

theorem loading_keeps_files_depot :
    let inside := Folder.file "armor.ini" (.text "[Light]\nArmor=10\n") <|
      .file "armor.toml" (.text "[Light]\nArmor = 20\n") .empty
    depot.root.IsWellNamed ∧ depot.node "tpl" = .ok (.folder inside) ∧
      ∃ found, discover depot "tpl" = .ok found ∧ KeepsFiles depot "tpl" inside found := by
  intro inside
  have hnamed : depot.root.IsWellNamed := by decide
  have hroot : depot.node "tpl" = .ok (.folder inside) := rfl
  exact ⟨hnamed, hroot, loading_keeps_files hnamed hroot⟩

theorem discover_of_sorted (hroot : d.node root = .ok (.folder inside))
    (hfound : (publicFiles inside).filterMap (foundAt root) = found)
    (hsorted : found.Pairwise fun a b => a.le b = true) : discover d root = .ok found := by
  rw [discover, hroot]
  dsimp only
  rw [hfound, List.mergeSort_of_pairwise hsorted]

theorem discover_depot :
    discover depot "in" = .ok [⟨"a/b.ini", "in/a/b.ini"⟩, ⟨"a/b.ini", "in/a\\b.ini"⟩] ∧
      discover depot "tpl" =
        .ok [⟨"armor.ini", "tpl/armor.ini"⟩, ⟨"armor.toml", "tpl/armor.toml"⟩] :=
  ⟨discover_of_sorted rfl (by decide +kernel) (by decide +kernel),
    discover_of_sorted rfl (by decide +kernel) (by decide +kernel)⟩

theorem loadDocuments_depot : loadDocuments depot "in" .abort =
    .ok (Catalog.ofList [("a/b.ini", Keyed.ofList [("S", ⟨[("K", .scalar "2")]⟩)])]) := by
  refine loadDocuments_eq_ok.2 ⟨_, discover_depot.1, ?_⟩
  decide +kernel

theorem loadTemplates_depot :
    let body : Section := ⟨[("Armor", .scalar "20")]⟩
    loadTemplates depot "tpl" = .ok (Catalog.ofList
      [("armor", ⟨"armor", body, .finite 0⟩), ("armor:Light", ⟨"armor:Light", body, .finite 0⟩)]) := by
  refine loadTemplates_eq_ok.2 ⟨_, discover_depot.2, ?_⟩
  decide +kernel

/-- Two files with one name leave one document, and of two files that register one name the first is
not found in the store. -/
theorem same_name_replaced :
    (∃ found library, discover depot "in" = .ok found ∧
      loadDocuments depot "in" .abort = .ok library ∧ library.size ≠ found.length) ∧
    ∃ found store f file body, discover depot "tpl" = .ok found ∧
      loadTemplates depot "tpl" = .ok store ∧ f ∈ found ∧
      DocumentFile.read depot f.path = .ok file ∧ file.get? "Light" = some body ∧
      ¬ ∃ t, store.get? (Name.stem f.name ++ ":" ++ "Light") = some t ∧ t.body = body := by
  have hread : DocumentFile.read depot "tpl/armor.ini" =
      .ok (Keyed.ofList [("Light", ⟨[("Armor", .scalar "10")]⟩)]) := by decide +kernel
  refine ⟨⟨_, _, discover_depot.1, loadDocuments_depot, by decide⟩, _, _, _, _, _,
    discover_depot.2, loadTemplates_depot, List.mem_cons_self, hread, rfl, ?_⟩
  rintro ⟨t, ht, hbody⟩
  have hname : Name.stem "armor.ini" ++ ":" ++ "Light" = "armor:Light" := by decide +kernel
  rw [hname] at ht
  obtain rfl := Option.some.inj ht
  exact absurd hbody (by decide)

end Discovery

end SectionCompiler
