import SectionCompiler.Discovery

/-! How a file tree grows. A node that is put into a folder leaves all folders where they are, and
all files but the one in whose place it stands. What is found in a folder changes by the new file
only, and an empty folder adds nothing to it. -/

namespace SectionCompiler

open Discovery (isPrivate publicFiles)

namespace Folder

variable {f g : Folder} {node : Node} {name : String} {way : List String}

/-- Induction over the entries of a folder, and into the folders among them. -/
@[elab_as_elim]
theorem entries_induction {motive : Folder → Prop} (f : Folder) (empty : motive empty)
    (entry : ∀ name node others, (∀ inside, node = .folder inside → motive inside) →
      motive others → motive (ofNode name node others)) : motive f := by
  induction f with
  | empty => exact empty
  | file name content others ih => exact entry name (.file content) others nofun ih
  | folder name inside others ihInside ih =>
    exact entry name (.folder inside) others (fun _ h => Node.folder.inj h ▸ ihInside) ih

theorem child?_ofNode (name key : String) (node : Node) (others : Folder) :
    (ofNode name node others).child? key = if name = key then some node else others.child? key := by
  cases node <;> rfl

theorem put_ofNode (first name : String) (old node : Node) (others : Folder) :
    (ofNode first old others).put name node =
      if first = name then ofNode name node others
      else ofNode first old (others.put name node) := by
  cases old <;> rfl

theorem child?_put (f : Folder) (name key : String) (node : Node) :
    (f.put name node).child? key = if name = key then some node else f.child? key := by
  induction f using entries_induction with
  | empty => exact child?_ofNode name key node empty
  | entry first old others _ ih =>
    rw [put_ofNode, child?_ofNode first]
    by_cases hfirst : first = name
    · rw [if_pos hfirst, child?_ofNode, hfirst]
      split <;> rfl
    · rw [if_neg hfirst, child?_ofNode, ih]
      by_cases hkey : name = key
      · rw [if_pos hkey, if_pos hkey, if_neg fun h => hfirst (h.trans hkey.symm)]
      · rw [if_neg hkey, if_neg hkey]

theorem put_eq_self (h : f.child? name = some node) : f.put name node = f := by
  induction f using entries_induction with
  | empty => cases h
  | entry first old others _ ih =>
    rw [child?_ofNode] at h
    rw [put_ofNode]
    split at h
    · next hfirst =>
      obtain rfl := Option.some.inj h
      rw [if_pos hfirst, hfirst]
    · next hfirst => rw [if_neg hfirst, ih h]

theorem find?_cons_of_folder {inside : Folder} (h : f.child? name = some (.folder inside))
    (way : List String) : f.find? (name :: way) = inside.find? way := by
  rw [find?, h]

theorem find?_singleton (f : Folder) (name : String) : f.find? [name] = f.child? name := by
  rw [find?]
  rcases f.child? name with _ | _ | _ <;> rfl

/-- A way that goes on leads through a folder first. -/
theorem exists_child?_of_find? (h : f.find? (name :: way) = some node) (hway : way ≠ []) :
    ∃ inside, f.child? name = some (.folder inside) ∧ inside.find? way = some node := by
  rw [find?] at h
  rcases hc : f.child? name with _ | content | inside
  · rw [hc] at h
    cases h
  · rw [hc] at h
    exact absurd h (by simp [hway])
  · rw [hc] at h
    exact ⟨inside, rfl, h⟩

theorem find?_append {above : List String} {inside : Folder}
    (h : f.find? above = some (.folder inside)) (way : List String) :
    f.find? (above ++ way) = inside.find? way := by
  induction above generalizing f with
  | nil =>
    obtain rfl := Node.folder.inj (Option.some.inj h)
    rfl
  | cons name rest ih =>
    cases rest with
    | nil =>
      rw [find?_singleton] at h
      exact find?_cons_of_folder h way
    | cons next rest =>
      obtain ⟨sub, hsub, hfind⟩ := exists_child?_of_find? h (List.cons_ne_nil next rest)
      rw [List.cons_append, find?_cons_of_folder hsub]
      exact ih hfind

theorem exists_folder_of_find?_append {above : List String} (hway : way ≠ [])
    (h : f.find? (above ++ way) = some node) : ∃ inside, f.find? above = some (.folder inside) := by
  induction above generalizing f with
  | nil => exact ⟨f, rfl⟩
  | cons name rest ih =>
    rw [List.cons_append] at h
    obtain ⟨sub, hsub, hfind⟩ := exists_child?_of_find? h fun hnil =>
      hway (List.append_eq_nil_iff.1 hnil).2
    rw [find?_cons_of_folder hsub]
    exact ih hfind

/-- All names of a way but the last lead into folders. -/
inductive Room : Folder → List String → Prop
  | last (f : Folder) (name : String) : Room f [name]
  | inside {f sub : Folder} {name : String} {way : List String} :
      f.child? name = some (.folder sub) → Room sub way → Room f (name :: way)

theorem Room.ne_nil (h : Room f way) : way ≠ [] := by
  cases h <;> exact List.cons_ne_nil _ _

theorem room_append {above : List String} {inside : Folder}
    (h : f.find? above = some (.folder inside)) (name : String) : Room f (above ++ [name]) := by
  induction above generalizing f with
  | nil => exact .last f name
  | cons first rest ih =>
    cases rest with
    | nil =>
      rw [find?_singleton] at h
      exact .inside h (.last inside name)
    | cons next rest =>
      obtain ⟨sub, hsub, hfind⟩ := exists_child?_of_find? h (List.cons_ne_nil next rest)
      exact .inside hsub (ih hfind)

theorem putAt_inside {sub : Folder} (h : f.child? name = some (.folder sub)) (hway : way ≠ [])
    (node : Node) : f.putAt node (name :: way) = f.put name (.folder (sub.putAt node way)) := by
  cases way with
  | nil => exact absurd rfl hway
  | cons next rest => simp only [putAt, h]

theorem find?_putAt_self (h : Room f way) (node : Node) :
    (f.putAt node way).find? way = some node := by
  induction h with
  | last f name => rw [putAt, find?_singleton, child?_put, if_pos rfl]
  | @inside f sub name way hsub hroom ih =>
    have hput : (f.putAt node (name :: way)).child? name = some (.folder (sub.putAt node way)) := by
      rw [putAt_inside hsub hroom.ne_nil, child?_put, if_pos rfl]
    rw [find?_cons_of_folder hput, ih]

theorem putAt_eq_self (h : Room f way) (hnode : f.find? way = some node) :
    f.putAt node way = f := by
  induction h with
  | last f name =>
    rw [find?_singleton] at hnode
    exact put_eq_self hnode
  | @inside f sub name way hsub hroom ih =>
    rw [find?_cons_of_folder hsub] at hnode
    rw [putAt_inside hsub hroom.ne_nil, ih hnode]
    exact put_eq_self hsub

/-- A file stays when something else is put where no folder is. -/
theorem find?_putAt_file (h : Room f way) (hway : ∀ inside, f.find? way ≠ some (.folder inside))
    {w : List String} {content : Content} (hw : f.find? w = some (.file content)) (hne : w ≠ way)
    (node : Node) : (f.putAt node way).find? w = some (.file content) := by
  induction h generalizing w with
  | last f name =>
    cases w with
    | nil => cases hw
    | cons first rest =>
      by_cases hfirst : name = first
      · subst hfirst
        have hrest : rest ≠ [] := fun hnil => hne (by rw [hnil])
        obtain ⟨sub, hsub, -⟩ := exists_child?_of_find? hw hrest
        exact absurd hsub (find?_singleton f name ▸ hway sub)
      · rw [find?] at hw ⊢
        rw [putAt, child?_put, if_neg hfirst]
        exact hw
  | @inside f sub name way hsub hroom ih =>
    cases w with
    | nil => cases hw
    | cons first rest =>
      rw [putAt_inside hsub hroom.ne_nil]
      by_cases hfirst : name = first
      · subst hfirst
        rw [find?_cons_of_folder hsub] at hw
        have hput : (f.put name (.folder (sub.putAt node way))).child? name =
            some (.folder (sub.putAt node way)) := by rw [child?_put, if_pos rfl]
        rw [find?_cons_of_folder hput]
        refine ih (fun inside => ?_) hw fun heq => hne (by rw [heq])
        rw [← find?_cons_of_folder hsub way]
        exact hway inside
      · rw [find?] at hw ⊢
        rw [child?_put, if_neg hfirst]
        exact hw

/-- A folder stays when something is put where no folder is. Either it is as it was, or the node
went into it. -/
theorem find?_putAt_folder (h : Room f way) (hway : ∀ inside, f.find? way ≠ some (.folder inside))
    {w : List String} {inside : Folder} (hw : f.find? w = some (.folder inside)) (node : Node) :
    (f.putAt node way).find? w = some (.folder inside) ∨
      ∃ v, way = w ++ v ∧ Room inside v ∧
        (f.putAt node way).find? w = some (.folder (inside.putAt node v)) := by
  induction h generalizing w with
  | last f name =>
    cases w with
    | nil =>
      obtain rfl := Node.folder.inj (Option.some.inj hw)
      exact Or.inr ⟨[name], rfl, .last f name, rfl⟩
    | cons first rest =>
      left
      by_cases hfirst : name = first
      · subst hfirst
        obtain ⟨sub, hsub⟩ : ∃ sub, f.child? name = some (.folder sub) := by
          cases rest with
          | nil => exact ⟨inside, find?_singleton f name ▸ hw⟩
          | cons next rest =>
            obtain ⟨sub, hsub, -⟩ := exists_child?_of_find? hw (List.cons_ne_nil next rest)
            exact ⟨sub, hsub⟩
        exact absurd hsub (find?_singleton f name ▸ hway sub)
      · rw [find?] at hw ⊢
        rw [putAt, child?_put, if_neg hfirst]
        exact hw
  | @inside f sub name way hsub hroom ih =>
    cases w with
    | nil =>
      obtain rfl := Node.folder.inj (Option.some.inj hw)
      exact Or.inr ⟨name :: way, rfl, .inside hsub hroom, rfl⟩
    | cons first rest =>
      rw [putAt_inside hsub hroom.ne_nil]
      by_cases hfirst : name = first
      · subst hfirst
        rw [find?_cons_of_folder hsub] at hw
        have hput : (f.put name (.folder (sub.putAt node way))).child? name =
            some (.folder (sub.putAt node way)) := by rw [child?_put, if_pos rfl]
        have hway' : ∀ inside, sub.find? way ≠ some (.folder inside) := by
          intro inside
          rw [← find?_cons_of_folder hsub way]
          exact hway inside
        rw [find?_cons_of_folder hput]
        rcases ih hway' hw with hsame | ⟨v, rfl, hroom', hfind⟩
        · exact Or.inl hsame
        · exact Or.inr ⟨v, rfl, hroom', hfind⟩
      · left
        rw [find?] at hw ⊢
        rw [child?_put, if_neg hfirst]
        exact hw

/-! ### What is found in a folder -/

/-- The ways to the files that are not private in what stands under a name, if anything does. -/
def publicUnder (name : String) : Option Node → List (List String)
  | none => []
  | some node => publicFiles (ofNode name node empty)

theorem publicFiles_ofNode (name : String) (node : Node) (others : Folder) :
    publicFiles (ofNode name node others) = publicUnder name (some node) ++ publicFiles others := by
  cases node with
  | file content =>
    simp only [publicUnder, ofNode, publicFiles]
    split <;> rfl
  | folder inside =>
    simp only [publicUnder, ofNode, publicFiles]
    split
    · rfl
    · rw [List.append_nil]

/-- Putting a node under a name changes the part of the public files that lies under the name. -/
theorem publicFiles_put (f : Folder) (name : String) : ∃ before after,
    publicFiles f = before ++ publicUnder name (f.child? name) ++ after ∧
      ∀ node, publicFiles (f.put name node) = before ++ publicUnder name (some node) ++ after := by
  induction f using entries_induction with
  | empty => exact ⟨[], [], rfl, fun node => by rw [put, publicFiles_ofNode]; rfl⟩
  | entry first old others _ ih =>
    simp only [put_ofNode, child?_ofNode, publicFiles_ofNode first old others]
    by_cases hfirst : first = name
    · subst hfirst
      simp only [if_true]
      exact ⟨[], publicFiles others, rfl, fun node => publicFiles_ofNode first node others⟩
    · obtain ⟨before, after, hf, hput⟩ := ih
      simp only [if_neg hfirst, publicFiles_ofNode, hf, hput]
      exact ⟨publicUnder first (some old) ++ before, after, by simp, by simp⟩

theorem publicUnder_folder (name : String) (inside : Folder) :
    publicUnder name (some (.folder inside)) =
      if isPrivate name then [] else (publicFiles inside).map (name :: ·) := by
  simp only [publicUnder, ofNode, publicFiles, List.append_nil]

theorem publicUnder_file (name : String) (content : Content) :
    publicUnder name (some (.file content)) = if isPrivate name then [] else [[name]] := rfl

theorem publicFiles_putAt_empty (h : Room f way) (hway : f.find? way = none) :
    publicFiles (f.putAt (.folder empty) way) = publicFiles f := by
  induction h with
  | last f name =>
    obtain ⟨before, after, hf, hput⟩ := publicFiles_put f name
    rw [find?_singleton] at hway
    rw [putAt, hput, hf, hway, publicUnder_folder]
    congr 2
    split <;> rfl
  | @inside f sub name way hsub hroom ih =>
    obtain ⟨before, after, hf, hput⟩ := publicFiles_put f name
    rw [find?_cons_of_folder hsub] at hway
    rw [putAt_inside hsub hroom.ne_nil, hput, hf, hsub, publicUnder_folder, publicUnder_folder,
      ih hway]

/-- A file adds nothing to what is found but itself. -/
theorem filterMap_publicFiles_putAt_file {α : Type} {found : List String → Option α}
    (h : Room f way) (hway : ∀ inside, f.find? way ≠ some (.folder inside)) (content : Content)
    (hfound : (∀ name ∈ way, isPrivate name = false) → found way = none) :
    (publicFiles (f.putAt (.file content) way)).filterMap found =
      (publicFiles f).filterMap found := by
  induction h generalizing found with
  | last f name =>
    obtain ⟨before, after, hf, hput⟩ := publicFiles_put f name
    rw [putAt, hput, hf]
    simp only [List.filterMap_append]
    congr 2
    rw [publicUnder_file]
    rcases hc : f.child? name with _ | content' | inside
    · cases hprivate : isPrivate name with
      | true => rfl
      | false =>
        have hnone : found [name] = none := hfound (by simpa using hprivate)
        simp [publicUnder, hnone]
    · rw [publicUnder_file]
    · exact absurd hc (find?_singleton f name ▸ hway inside)
  | @inside f sub name way hsub hroom ih =>
    obtain ⟨before, after, hf, hput⟩ := publicFiles_put f name
    rw [putAt_inside hsub hroom.ne_nil, hput, hf, hsub]
    simp only [List.filterMap_append]
    congr 2
    rw [publicUnder_folder, publicUnder_folder]
    cases hprivate : isPrivate name with
    | true => rfl
    | false =>
      have hway' : ∀ inside, sub.find? way ≠ some (.folder inside) := by
        intro inside
        rw [← find?_cons_of_folder hsub way]
        exact hway inside
      simp only [Bool.false_eq_true, if_false, List.filterMap_map]
      refine ih hway' fun hpublic => hfound ?_
      exact List.forall_mem_cons.2 ⟨hprivate, hpublic⟩

/-! ### Growth -/

/-- A tree that has all folders of another, all its files, and under its folders the same found
files. Only at the ways of `New` there may be new files or files with other contents. -/
structure Grows (New : List String → Prop) (f g : Folder) : Prop where
  file : ∀ {way : List String} {content : Content}, f.find? way = some (.file content) →
    ∃ content', g.find? way = some (.file content') ∧ (¬ New way → content' = content)
  folder : ∀ {way : List String} {inside : Folder}, f.find? way = some (.folder inside) →
    ∃ inside', g.find? way = some (.folder inside') ∧
      ∀ {α : Type} (found : List String → Option α),
        (∀ v, New (way ++ v) → (∀ name ∈ v, isPrivate name = false) → found v = none) →
        (publicFiles inside').filterMap found = (publicFiles inside).filterMap found

variable {New New' : List String → Prop}

theorem Grows.refl (New : List String → Prop) (f : Folder) : Grows New f f :=
  ⟨fun h => ⟨_, h, fun _ => rfl⟩, fun h => ⟨_, h, fun _ _ => rfl⟩⟩

theorem Grows.trans {h : Folder} (hf : Grows New f g) (hg : Grows New g h) : Grows New f h := by
  refine ⟨fun hfile => ?_, fun hfolder => ?_⟩
  · obtain ⟨content', hfile', hsame⟩ := hf.file hfile
    obtain ⟨content'', hfile'', hsame'⟩ := hg.file hfile'
    exact ⟨content'', hfile'', fun hnew => (hsame' hnew).trans (hsame hnew)⟩
  · obtain ⟨inside', hfolder', hsame⟩ := hf.folder hfolder
    obtain ⟨inside'', hfolder'', hsame'⟩ := hg.folder hfolder'
    exact ⟨inside'', hfolder'', fun found hnew => (hsame' found hnew).trans (hsame found hnew)⟩

theorem Grows.mono (h : ∀ way, New way → New' way) (hf : Grows New f g) : Grows New' f g := by
  refine ⟨fun hfile => ?_, fun hfolder => ?_⟩
  · obtain ⟨content', hfile', hsame⟩ := hf.file hfile
    exact ⟨content', hfile', fun hnew => hsame fun hn => hnew (h _ hn)⟩
  · obtain ⟨inside', hfolder', hsame⟩ := hf.folder hfolder
    exact ⟨inside', hfolder', fun found hnew => hsame found fun v hv => hnew v (h _ hv)⟩

theorem grows_putAt_empty (h : Room f way) (hway : f.find? way = none) :
    Grows (fun _ => False) f (f.putAt (.folder empty) way) := by
  have hno : ∀ inside, f.find? way ≠ some (.folder inside) := by
    intro inside
    rw [hway]
    exact nofun
  refine ⟨fun {w} content hfile => ?_, fun {w} inside hfolder => ?_⟩
  · have hne : w ≠ way := by
      rintro rfl
      rw [hway] at hfile
      cases hfile
    exact ⟨content, find?_putAt_file h hno hfile hne _, fun _ => rfl⟩
  · rcases find?_putAt_folder h hno hfolder (.folder empty) with hsame | ⟨v, rfl, hroom, hput⟩
    · exact ⟨inside, hsame, fun _ _ => rfl⟩
    · rw [find?_append hfolder] at hway
      exact ⟨_, hput, fun found _ => by rw [publicFiles_putAt_empty hroom hway]⟩

theorem grows_putAt_file (h : Room f way) (hway : ∀ inside, f.find? way ≠ some (.folder inside))
    (content : Content) : Grows (· = way) f (f.putAt (.file content) way) := by
  refine ⟨fun {w} content' hfile => ?_, fun {w} inside hfolder => ?_⟩
  · by_cases hw : w = way
    · subst hw
      exact ⟨content, find?_putAt_self h _, fun hnew => absurd rfl hnew⟩
    · exact ⟨content', find?_putAt_file h hway hfile hw _, fun _ => rfl⟩
  · rcases find?_putAt_folder h hway hfolder (.file content) with hsame | ⟨v, rfl, hroom, hput⟩
    · exact ⟨inside, hsame, fun _ _ => rfl⟩
    · refine ⟨_, hput, fun found hnew => filterMap_publicFiles_putAt_file hroom ?_ content ?_⟩
      · intro sub
        rw [← find?_append hfolder]
        exact hway sub
      · exact hnew v rfl

end Folder

end SectionCompiler
