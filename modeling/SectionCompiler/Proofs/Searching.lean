import Mathlib.Data.List.Nodup
import SectionCompiler.Proofs.Relative

/-! What a search finds. The documents below a folder are the files with a known ending on whose
way no name begins with an at sign; the search lists each of them once and nothing else, by name and
then by path. The name of the folder in which it begins does not count. -/

namespace SectionCompiler

open Discovery (isPrivate publicFiles)

namespace Folder

variable {f : Folder} {way : List String}

theorem mem_publicFiles_of_find? {content : Content} (hfind : f.find? way = some (.file content))
    (hpublic : ∀ name ∈ way, isPrivate name = false) : way ∈ publicFiles f := by
  induction f using entries_induction generalizing way with
  | empty =>
    cases way with
    | nil => cases hfind
    | cons name rest => cases hfind
  | entry first node others inner ih =>
    cases way with
    | nil => cases hfind
    | cons name rest =>
      obtain ⟨hname, hrest⟩ := List.forall_mem_cons.1 hpublic
      rw [mem_publicFiles_ofNode]
      by_cases hfirst : first = name
      · left
        subst hfirst
        have hchild : (ofNode first node others).child? first = some node := by
          rw [child?_ofNode, if_pos rfl]
        cases node with
        | file content' =>
          rw [find?, hchild] at hfind
          dsimp only at hfind
          split at hfind
          · next hnil => exact mem_publicUnder_file.2 ⟨hname, by rw [hnil]⟩
          · cases hfind
        | folder sub =>
          rw [find?_cons_of_folder hchild] at hfind
          exact mem_publicUnder_folder.2 ⟨hname, rest, inner sub rfl hfind hrest, rfl⟩
      · right
        refine ih ?_ hpublic
        rw [find?, child?_ofNode, if_neg hfirst] at hfind
        rw [find?]
        exact hfind

/-- Passing over private names, entry by entry, leaves the files with no private name on their
way. -/
theorem mem_publicFiles_iff (h : f.IsWellNamed) : way ∈ publicFiles f ↔
    (∃ content, f.find? way = some (.file content)) ∧ ∀ name ∈ way, isPrivate name = false :=
  ⟨fun hway => ⟨(h.of_mem_publicFiles hway).1, not_isPrivate_of_mem_publicFiles hway⟩,
    fun ⟨⟨_, hfind⟩, hpublic⟩ => mem_publicFiles_of_find? hfind hpublic⟩

theorem nodup_publicFiles (h : f.IsWellNamed) : (publicFiles f).Nodup := by
  induction f using entries_induction with
  | empty => exact List.nodup_nil
  | entry first node others inner ih =>
    obtain ⟨-, hfresh, hinside, hothers⟩ := (isWellNamed_ofNode first node others).1 h
    have hunder : (publicUnder first (some node)).Nodup := by
      cases node with
      | file content => rw [publicUnder_file]; split <;> simp
      | folder sub =>
        rw [publicUnder_folder]
        split
        · exact List.nodup_nil
        · exact List.Nodup.map List.cons_injective (inner sub rfl (hinside sub rfl))
    rw [publicFiles_ofNode]
    refine List.nodup_append.2 ⟨hunder, ih hothers, ?_⟩
    -- the ways through the other entries begin with other names
    rintro way hway _ hother rfl
    obtain ⟨rest, rfl⟩ := exists_cons_of_mem_publicUnder hway
    obtain ⟨name, _, heq, hin⟩ := exists_cons_of_mem_publicFiles hother
    exact hfresh ((List.cons.inj heq).1 ▸ hin)

end Folder

/-! ### The order of what is found -/

namespace Component

theorem le_total (a b : Component) : a.le b = true ∨ b.le a = true := by
  cases a <;> cases b <;> simp [le, String.le_total]

theorem le_trans {a b c : Component} (hab : a.le b = true) (hbc : b.le c = true) :
    a.le c = true := by
  cases a <;> cases b <;> cases c <;> simp_all [le]
  exact String.le_trans hab hbc

theorem le_antisymm {a b : Component} (hab : a.le b = true) (hba : b.le a = true) : a = b := by
  cases a <;> cases b <;> simp_all [le]
  exact String.le_antisymm hab hba

theorem listLe_total (as bs : List Component) : listLe as bs = true ∨ listLe bs as = true := by
  induction as generalizing bs with
  | nil => exact Or.inl rfl
  | cons a as ih =>
    cases bs with
    | nil => exact Or.inr rfl
    | cons b bs =>
      by_cases hab : a = b
      · simpa [listLe, hab] using ih bs
      · simpa [listLe, hab, Ne.symm hab] using le_total a b

theorem listLe_trans {as bs cs : List Component} (hab : listLe as bs = true)
    (hbc : listLe bs cs = true) : listLe as cs = true := by
  induction as generalizing bs cs with
  | nil => rfl
  | cons a as ih =>
    cases bs with
    | nil => cases hab
    | cons b bs =>
      cases cs with
      | nil => cases hbc
      | cons c cs =>
        simp only [listLe] at hab hbc ⊢
        by_cases h : a = b
        · subst h
          by_cases h' : a = c
          · rw [if_pos h'] at hbc ⊢
            rw [if_pos rfl] at hab
            exact ih hab hbc
          · rwa [if_neg h'] at hbc ⊢
        · rw [if_neg h] at hab
          by_cases h' : b = c
          · rwa [← h', if_neg h]
          · rw [if_neg h'] at hbc
            have hac : a ≠ c := by
              rintro rfl
              exact h (le_antisymm hab hbc)
            rw [if_neg hac]
            exact le_trans hab hbc

end Component

namespace Discovery

variable {d : Disk} {root : String} {inside : Folder} {way : List String}

namespace Found

theorem le_iff (a b : Found) : a.le b = true ↔
    a.name < b.name ∨ a.name = b.name ∧ Path.le a.path b.path = true := by
  unfold le
  split
  · next h => simp [h]
  · next h =>
    simp only [h, false_and, or_false, decide_eq_true_eq]
    exact ⟨fun hle => Catalog.lt_of_not_lt_of_ne (String.not_lt.2 hle) h, Std.le_of_lt⟩

theorem le_total (a b : Found) : (a.le b || b.le a) = true := by
  rw [Bool.or_eq_true, le_iff, le_iff]
  by_cases hlt : a.name < b.name
  · exact Or.inl (Or.inl hlt)
  by_cases h : a.name = b.name
  · rcases Component.listLe_total (Path.components a.path) (Path.components b.path) with hp | hp
    · exact Or.inl (Or.inr ⟨h, hp⟩)
    · exact Or.inr (Or.inr ⟨h.symm, hp⟩)
  · exact Or.inr (Or.inl (Catalog.lt_of_not_lt_of_ne hlt (Ne.symm h)))

theorem le_trans (a b c : Found) (hab : a.le b = true) (hbc : b.le c = true) : a.le c = true := by
  rw [le_iff] at hab hbc ⊢
  rcases hab with hab | ⟨hab, hpath⟩
  · rcases hbc with hbc | ⟨hbc, -⟩
    · exact Or.inl (String.lt_trans hab hbc)
    · exact Or.inl (hbc ▸ hab)
  · rcases hbc with hbc | ⟨hbc, hpath'⟩
    · exact Or.inl (hab ▸ hbc)
    · exact Or.inr ⟨hab.trans hbc, Component.listLe_trans hpath hpath'⟩

end Found

/-! ### What is found -/

/-- A file below a folder that is a document: no name on the way to it begins with an at sign, and
its own name has a known ending. -/
structure IsDocument (inside : Folder) (way : List String) : Prop where
  file : ∃ content, inside.find? way = some (.file content)
  isPublic : ∀ name ∈ way, name.toList.head? ≠ some '@'
  isKnown : ∃ name ∈ way.getLast?, Format.IsKnown name

def listed (root : String) (way : List String) : Found :=
  ⟨documentName (Path.ofWay way), Path.join root (Path.ofWay way)⟩

theorem isPrivate_eq_false_iff {name : String} :
    isPrivate name = false ↔ name.toList.head? ≠ some '@' := decide_eq_false_iff_not

theorem IsDocument.mem_publicFiles (h : IsDocument inside way) : way ∈ publicFiles inside := by
  obtain ⟨content, hfind⟩ := h.file
  exact Folder.mem_publicFiles_of_find? hfind fun name hname =>
    isPrivate_eq_false_iff.2 (h.isPublic name hname)

theorem ne_nil_of_mem_publicFiles (h : way ∈ publicFiles inside) : way ≠ [] := by
  obtain ⟨name, rest, rfl, -⟩ := Folder.exists_cons_of_mem_publicFiles h
  exact List.cons_ne_nil name rest

theorem foundAt_eq_some_iff {f : Found} (hway : ∀ name ∈ way, IsName name) (hne : way ≠ []) :
    foundAt root way = some f ↔
      (∃ name ∈ way.getLast?, Format.IsKnown name) ∧ f = listed root way := by
  obtain ⟨front, name, rfl⟩ := (List.eq_nil_or_concat' way).resolve_left hne
  have hfile : Path.fileName? ((front ++ [name]).foldl Path.join root) = some name := by
    rw [List.foldl_append]
    exact Path.fileName?_join (hway name (by simp)) _
  rw [foundAt, Option.ite_some_none_eq_some, Format.isSome_ofPath?_iff hfile,
    Path.foldl_join_eq hway hne, List.getLast?_concat]
  simp only [Option.mem_some_iff, exists_eq_left']
  exact and_congr_right' eq_comm

theorem listed_inj {v w : List String} (hnamed : inside.IsWellNamed) (hv : v ∈ publicFiles inside)
    (hw : w ∈ publicFiles inside) (h : listed root v = listed root w) : v = w := by
  have hv' := (hnamed.of_mem_publicFiles hv).2
  have hw' := (hnamed.of_mem_publicFiles hw).2
  apply Path.ofWay_inj hv' hw' (ne_nil_of_mem_publicFiles hv) (ne_nil_of_mem_publicFiles hw)
  exact Path.join_inj (Path.not_isAbsolute_ofWay hv') (Path.not_isAbsolute_ofWay hw')
    (congrArg Found.path h)

theorem filterMap_eq_map_filter {α β : Type} {p : α → Option β} {g : α → β} {l : List α}
    (h : ∀ a ∈ l, ∀ b ∈ p a, b = g a) : l.filterMap p = (l.filter fun a => (p a).isSome).map g := by
  induction l with
  | nil => rfl
  | cons a l ih =>
    obtain ⟨ha, hl⟩ := List.forall_mem_cons.1 h
    cases hp : p a with
    | none => rw [List.filterMap_cons_none hp, List.filter_cons_of_neg (by simp [hp]), ih hl]
    | some b =>
      rw [List.filterMap_cons_some hp, List.filter_cons_of_pos (by simp [hp]), ih hl, List.map_cons,
        ha b hp]

/-- What is found before it is sorted: the documents, each at one way. -/
theorem exists_ways (hnamed : inside.IsWellNamed) (root : String) : ∃ ways : List (List String),
    ways.Nodup ∧ (∀ way, way ∈ ways ↔ IsDocument inside way) ∧
      (publicFiles inside).filterMap (foundAt root) = ways.map (listed root) := by
  have hat : ∀ way ∈ publicFiles inside, ∀ f, foundAt root way = some f ↔
      (∃ name ∈ way.getLast?, Format.IsKnown name) ∧ f = listed root way := fun way hway f =>
    foundAt_eq_some_iff (hnamed.of_mem_publicFiles hway).2 (ne_nil_of_mem_publicFiles hway)
  refine ⟨_, (Folder.nodup_publicFiles hnamed).filter _, fun way => ?_,
    filterMap_eq_map_filter fun way hway f hf => ((hat way hway f).1 hf).2⟩
  rw [List.mem_filter, Option.isSome_iff_exists]
  constructor
  · rintro ⟨hway, f, hf⟩
    obtain ⟨hfile, hpublic⟩ := (Folder.mem_publicFiles_iff hnamed).1 hway
    exact ⟨hfile, fun name hname => isPrivate_eq_false_iff.1 (hpublic name hname),
      ((hat way hway f).1 hf).1⟩
  · intro h
    exact ⟨h.mem_publicFiles, _, (hat way h.mem_publicFiles _).2 ⟨h.isKnown, rfl⟩⟩

theorem isWellNamed_of_node (hnamed : d.root.IsWellNamed)
    (hroot : d.node root = .ok (.folder inside)) : inside.IsWellNamed := by
  obtain ⟨p, hp, hnode⟩ := bind_eq_ok.1 hroot
  have hplace := Disk.node_of_place hp
  cases hn : p.node with
  | none =>
    rw [hn] at hnode
    cases hnode
  | some node =>
    rw [hn] at hnode hplace
    obtain rfl := Except.ok.inj hnode
    exact hnamed.of_find? hplace.symm

/-- A search of a folder, whatever the name of the folder is, finds the documents below it: each of
them once under its relative path, nothing else, and in the order of their names and then of their
paths. -/
theorem discover_exact (hnamed : d.root.IsWellNamed) (hroot : d.node root = .ok (.folder inside)) :
    ∃ found, discover d root = .ok found ∧
      (∃ ways : List (List String), ways.Nodup ∧ (∀ way, way ∈ ways ↔ IsDocument inside way) ∧
        found.Perm (ways.map (listed root))) ∧
      found.Nodup ∧
      found.Pairwise fun a b =>
        a.name < b.name ∨ a.name = b.name ∧ Path.le a.path b.path = true := by
  have hinside := isWellNamed_of_node hnamed hroot
  obtain ⟨ways, hnodup, hways, hmap⟩ := exists_ways hinside root
  have hperm := List.mergeSort_perm (ways.map (listed root)) Found.le
  have hsorted := List.pairwise_mergeSort Found.le_trans Found.le_total (ways.map (listed root))
  refine ⟨_, ?_, ⟨ways, hnodup, hways, hperm⟩, ?_, hsorted.imp fun h => (Found.le_iff _ _).1 h⟩
  · rw [discover, hroot, ← hmap]
  · refine hperm.nodup_iff.2 (hnodup.map_on fun v hv w hw heq => ?_)
    exact listed_inj hinside ((hways v).1 hv).mem_publicFiles ((hways w).1 hw).mem_publicFiles heq

/-- A folder with a private name of its own. Below it stand two documents, one of them with two dots
in its name, and files that are none: private ones, one in a private folder, one of another ending,
and one with nothing before the dot. -/
def attic : Folder :=
  .file "Tank.INI" (.text "[Tank]\n") <| .file "notes.txt" (.text "") <|
    .file ".ini" (.text "[Hidden]\n") <|
      .folder "units" (.file "scout.v2.yml" (.text "Scout:\n  Speed: 9\n") <|
        .file "@draft.ini" (.text "[Draft]\n") .empty) <|
      .folder "@old" (.file "tank.ini" (.text "[Tank]\n") .empty) .empty

theorem discover_exact_attic :
    let d : Disk := ⟨.folder "@macros" attic .empty, []⟩
    d.root.IsWellNamed ∧ d.node "@macros" = .ok (.folder attic) ∧
      ∃ found, discover d "@macros" = .ok found ∧
        (∃ ways : List (List String), ways.Nodup ∧ (∀ way, way ∈ ways ↔ IsDocument attic way) ∧
          found.Perm (ways.map (listed "@macros"))) ∧
        found.Nodup ∧
        found.Pairwise fun a b =>
          a.name < b.name ∨ a.name = b.name ∧ Path.le a.path b.path = true := by
  intro d
  have hnamed : d.root.IsWellNamed := by decide
  have hroot : d.node "@macros" = .ok (.folder attic) := rfl
  exact ⟨hnamed, hroot, discover_exact hnamed hroot⟩

end Discovery

end SectionCompiler
