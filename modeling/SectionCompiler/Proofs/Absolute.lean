import Mathlib.Data.List.DropRight
import SectionCompiler.Output

/-! Absolute paths. What joins or shortens an absolute path gives an absolute path, and such a path
leads to the same place from every working directory: reading is the same there, and what writing
does to the tree is. -/

namespace SectionCompiler

namespace Path

variable {path base parent : String}

theorem isAbsolute_iff : isAbsolute path = true ↔ ∃ rest, path.toList = '/' :: rest := by
  rw [isAbsolute, decide_eq_true_iff]
  exact List.head?_eq_some_iff

theorem ne_empty_of_isAbsolute (h : isAbsolute path = true) : path ≠ "" := by
  rintro rfl
  exact absurd h (by decide)

theorem isAbsolute_of_prefix {front : List Char} (h : isAbsolute path = true)
    (hf : front <+: path.toList) (hne : front ≠ []) : isAbsolute (String.ofList front) = true := by
  obtain ⟨rest, hrest⟩ := isAbsolute_iff.1 h
  rw [hrest, List.prefix_cons_iff] at hf
  obtain rfl | ⟨t, rfl, -⟩ := hf
  · exact absurd rfl hne
  · exact isAbsolute_iff.2 ⟨t, String.toList_ofList⟩

theorem isAbsolute_join (h : isAbsolute base = true) (path : String) :
    isAbsolute (join base path) = true := by
  obtain ⟨rest, hrest⟩ := isAbsolute_iff.1 h
  unfold join
  split
  · next hp => exact hp
  · split
    · exact isAbsolute_iff.2 ⟨rest ++ path.toList, by simp [hrest]⟩
    · exact isAbsolute_iff.2 ⟨rest ++ '/' :: path.toList, by simp [hrest]⟩

theorem splitFront_of_cons {rest : List Char} (h : path.toList = '/' :: rest) :
    splitFront path.toList = (['/'], rest) := by
  rw [h, splitFront]

theorem isAbsolute_parent? (h : isAbsolute path = true) (hp : parent? path = some parent) :
    isAbsolute parent = true := by
  obtain ⟨rest, hrest⟩ := isAbsolute_iff.1 h
  simp only [parent?, splitFront_of_cons hrest] at hp
  split at hp
  · exact Option.some.inj hp ▸ isAbsolute_iff.2 ⟨_, String.toList_ofList⟩
  · simp at hp

/-- An absolute path without a parent has nothing but the root among its steps. -/
theorem components_of_parent?_eq_none (h : isAbsolute path = true) (hp : parent? path = none) :
    components path = [.root] := by
  obtain ⟨rest, hrest⟩ := isAbsolute_iff.1 h
  simp only [parent?, splitFront_of_cons hrest] at hp
  split at hp
  · simp at hp
  · next hnil =>
    have hempty : ∀ segment ∈ rest.splitOn '/', isEmptySegment segment = true := by
      simpa using List.dropWhile_eq_nil_iff.1 hnil
    have hnone : (rest.splitOn '/').filterMap componentOf? = [] := by
      refine List.filterMap_eq_nil_iff.2 fun segment hs => if_pos ?_
      simpa [isEmptySegment] using hempty segment hs
    simp only [components, splitFront_of_cons hrest, hnone]
    rfl

theorem exists_parent?_of_extension? {extension : String} (h : isAbsolute path = true)
    (he : extension? path = some extension) : ∃ parent, parent? path = some parent := by
  cases hp : parent? path with
  | some parent => exact ⟨parent, rfl⟩
  | none =>
    rw [extension?, fileName?, components_of_parent?_eq_none h hp] at he
    cases he

theorem splitOn_slashes {cs : List Char} (h : ∀ c ∈ cs, c = '/') :
    ∀ segment ∈ cs.splitOn '/', segment = [] := by
  induction cs with
  | nil => simp
  | cons c rest ih =>
    obtain ⟨rfl, hrest⟩ := List.forall_mem_cons.1 h
    rw [List.splitOn, List.splitOnP_cons_eq_if_modifyHead, if_pos (by simp)]
    exact List.forall_mem_cons.2 ⟨rfl, ih hrest⟩

theorem parent?_of_slashes (h : isAbsolute path = true) (hs : ∀ c ∈ path.toList, c = '/') :
    parent? path = none := by
  obtain ⟨rest, hrest⟩ := isAbsolute_iff.1 h
  have hempty : ∀ segment ∈ rest.splitOn '/', isEmptySegment segment = true := fun segment hm => by
    rw [splitOn_slashes (fun c hc => hs c (hrest ▸ List.mem_cons_of_mem _ hc)) segment hm]
    rfl
  have hnil : (rest.splitOn '/').reverse.dropWhile isEmptySegment = [] :=
    List.dropWhile_eq_nil_iff.2 fun segment hm => hempty segment (List.mem_reverse.1 hm)
  simp only [parent?, splitFront_of_cons hrest, hnil]
  rfl

end Path

namespace Disk

/-- The disk with another working directory. -/
def moveTo (d : Disk) (here : List String) : Disk := { d with here }

/-- The working directory is a folder of the tree. -/
def IsOpen (d : Disk) : Prop := ∃ inside, d.root.find? d.here = some (.folder inside)

variable {path : String}

theorem place_moveTo (h : Path.isAbsolute path = true) (d : Disk) (here : List String) :
    (d.moveTo here).place path = d.place path := by
  simp only [place, origin, moveTo, h, if_true]

theorem node_moveTo (h : Path.isAbsolute path = true) (d : Disk) (here : List String) :
    (d.moveTo here).node path = d.node path := by
  rw [node, place_moveTo h, node]

theorem read_moveTo (h : Path.isAbsolute path = true) (d : Disk) (here : List String) :
    (d.moveTo here).read path = d.read path := by
  rw [read, node_moveTo h, read]

theorem isFolder_moveTo (h : Path.isAbsolute path = true) (d : Disk) (here : List String) :
    (d.moveTo here).isFolder path = d.isFolder path := by
  rw [isFolder, node_moveTo h, isFolder]

theorem makeFolder_moveTo (h : Path.isAbsolute path = true) (d : Disk) (here : List String) :
    (d.moveTo here).makeFolder path = (d.makeFolder path).map (·.moveTo here) := by
  rw [makeFolder, place_moveTo h, makeFolder]
  rcases d.place path with fault | ⟨way, _ | node⟩ <;> rfl

def moveAnswer {α : Type} (here : List String) (answer : α × Disk) : α × Disk :=
  (answer.1, answer.2.moveTo here)

theorem makeFoldersWithin_moveTo (fuel : Nat) (h : Path.isAbsolute path = true) (d : Disk)
    (here : List String) :
    makeFoldersWithin fuel (d.moveTo here) path =
      moveAnswer here (makeFoldersWithin fuel d path) := by
  induction fuel using Nat.strongRecOn generalizing d path with
  | _ fuel ih =>
    have hne := Path.ne_empty_of_isAbsolute h
    rw [makeFoldersWithin.eq_def, makeFoldersWithin.eq_def _ d, if_neg hne, if_neg hne,
      makeFolder_moveTo h]
    rcases d.makeFolder path with (_ | _ | _ | _ | _ | _ | _) | made
    case ok => rfl
    case error.notFound =>
      cases fuel with
      | zero => rfl
      | succ fuel =>
        dsimp only [Except.map]
        cases hp : Path.parent? path with
        | none => rfl
        | some parent =>
          dsimp only
          rw [ih fuel (Nat.lt_succ_self fuel) (Path.isAbsolute_parent? h hp)]
          rcases makeFoldersWithin fuel d parent with ⟨_ | _, above⟩
          · rfl
          · -- the folder above is there now, so the folder is tried again
            dsimp only [moveAnswer]
            rw [makeFolder_moveTo h]
            rcases above.makeFolder path with _ | _
            · simp only [Except.map, isFolder_moveTo h]
              split <;> rfl
            · rfl
    all_goals
      simp only [Except.map, isFolder_moveTo h]
      split <;> rfl

theorem makeFolders_moveTo (h : Path.isAbsolute path = true) (d : Disk) (here : List String) :
    (d.moveTo here).makeFolders path = moveAnswer here (d.makeFolders path) :=
  makeFoldersWithin_moveTo _ h d here

theorem reach_moveTo (h : Path.isAbsolute path = true) (d : Disk) (here : List String) :
    (d.moveTo here).reach path = d.reach path := by
  simp only [reach, origin, moveTo, h, if_true]

theorem reach_empty {d : Disk} (h : d.IsOpen) : d.reach "" = .ok () := by
  obtain ⟨inside, hinside⟩ := h
  have horigin : d.origin "" = ⟨d.here, some (.folder inside)⟩ := by
    rw [origin, if_neg (by decide), hinside]
  rw [reach, horigin]
  rfl

theorem toList_withoutSlashes (path : String) :
    (withoutSlashes path).toList = path.toList.rdropWhile (· = '/') :=
  String.toList_ofList

theorem isAbsolute_withoutSlashes (h : Path.isAbsolute path = true)
    (hne : ∃ c ∈ path.toList, c ≠ '/') : Path.isAbsolute (withoutSlashes path) = true := by
  refine Path.isAbsolute_of_prefix h (List.rdropWhile_prefix (p := (· = '/')) _) fun hnil => ?_
  obtain ⟨c, hc, hslash⟩ := hne
  exact hslash (of_decide_eq_true (List.rdropWhile_eq_nil_iff.1 hnil c hc))

theorem withoutSlashes_of_slashes (h : ∀ c ∈ path.toList, c = '/') : withoutSlashes path = "" := by
  rw [← String.toList_eq_nil_iff, toList_withoutSlashes, List.rdropWhile_eq_nil_iff]
  simpa using h

/-- Writing to an absolute path changes the tree alike from every working directory. -/
theorem write_moveTo (h : Path.isAbsolute path = true) {d : Disk} {here : List String}
    (hopen : (∀ c ∈ path.toList, c = '/') → d.IsOpen ∧ (d.moveTo here).IsOpen) (text : String) :
    (d.moveTo here).write path text = (d.write path text).map (·.moveTo here) := by
  have hreach : (d.moveTo here).reach (withoutSlashes path) = d.reach (withoutSlashes path) := by
    by_cases hs : ∀ c ∈ path.toList, c = '/'
    · rw [withoutSlashes_of_slashes hs, reach_empty (hopen hs).1, reach_empty (hopen hs).2]
    · push Not at hs
      exact reach_moveTo (isAbsolute_withoutSlashes h hs) d here
  simp only [write, hreach, place_moveTo h]
  rcases checkPath path with fault | _
  · rfl
  · simp only [bind, Except.bind]
    split
    · rcases d.place path with fault | ⟨way, _ | (_ | _)⟩ <;> rfl
    · rcases d.reach (withoutSlashes path) with fault | _ <;> rfl

end Disk

namespace Output

variable {path : String}

theorem makeRoom_moveTo (h : Path.isAbsolute path = true) (d : Disk) (here : List String) :
    makeRoom (d.moveTo here) path = Disk.moveAnswer here (makeRoom d path) := by
  unfold makeRoom
  cases hp : Path.parent? path with
  | none => rfl
  | some parent =>
    dsimp only
    rw [Disk.makeFolders_moveTo (Path.isAbsolute_parent? h hp)]
    rcases d.makeFolders parent with ⟨_ | _, _⟩ <;> rfl

theorem write_moveTo (h : Path.isAbsolute path = true) {d : Disk} {here : List String}
    (hopen : d.IsOpen) (hopen' : (d.moveTo here).IsOpen) (text : String) :
    write (d.moveTo here) path text = Disk.moveAnswer here (write d path text) := by
  unfold write
  rw [makeRoom_moveTo h]
  rcases hroom : makeRoom d path with ⟨_ | _, made⟩
  · rfl
  · dsimp only [Disk.moveAnswer]
    rw [Disk.write_moveTo h]
    · rcases made.write path text with _ | _ <;> rfl
    · intro hs
      -- slashes alone have no parent, so no folder has been made for them
      rw [makeRoom, Path.parent?_of_slashes h hs] at hroom
      obtain rfl := (Prod.mk.inj hroom).2
      exact ⟨hopen, hopen'⟩

end Output

end SectionCompiler
