import SectionCompiler.Output
import SectionCompiler.Proofs.Answers
import SectionCompiler.Proofs.Growth

/-! Writing the output file of a build. A path that leads somewhere leads to the same place when
the tree has grown. Writing lets the tree grow by folders and by one file, and once a text has been
written to a path, writing it there again changes nothing. -/

namespace SectionCompiler

namespace Disk

open Folder (Room)

variable {root root' : Folder} {way : List String} {path : String} {d d' : Disk}
  {New New' : List String → Prop}

def placeAt (root : Folder) (way : List String) : Place := ⟨way, root.find? way⟩

theorem step_placeAt {inside : Folder} (h : root.find? way = some (.folder inside))
    (segment : List Char) :
    step root (placeAt root way) segment =
      if segment = [] ∨ segment = ['.'] then .ok (placeAt root way)
      else if segment = ['.', '.'] then .ok (placeAt root way.dropLast)
      else if maxName < (String.ofList segment).utf8ByteSize then .error .nameTooLong
      else .ok (placeAt root (way ++ [String.ofList segment])) := by
  simp only [step, placeAt, h]

theorem exists_folder_of_step {segment : List Char} {q : Place}
    (h : step root (placeAt root way) segment = .ok q) :
    ∃ inside, root.find? way = some (.folder inside) := by
  unfold step placeAt at h
  split at h
  · cases h
  · cases h
  · next inside hnode => exact ⟨inside, hnode⟩

def KeepsFolders (root root' : Folder) : Prop :=
  ∀ way inside, root.find? way = some (.folder inside) →
    ∃ inside', root'.find? way = some (.folder inside')

theorem step_keeps (hkeeps : KeepsFolders root root') {segment : List Char} {q : Place}
    (h : step root (placeAt root way) segment = .ok q) :
    q = placeAt root q.way ∧
      step root' (placeAt root' way) segment = .ok (placeAt root' q.way) := by
  obtain ⟨inside, hinside⟩ := exists_folder_of_step h
  obtain ⟨inside', hinside'⟩ := hkeeps way inside hinside
  rw [step_placeAt hinside] at h
  rw [step_placeAt hinside']
  split at h
  · next hskip =>
    obtain rfl := Except.ok.inj h
    exact ⟨rfl, if_pos hskip⟩
  · next hskip =>
    rw [if_neg hskip]
    split at h
    · next hup =>
      obtain rfl := Except.ok.inj h
      exact ⟨rfl, if_pos hup⟩
    · next hup =>
      rw [if_neg hup]
      split at h
      · cases h
      · next hlong =>
        obtain rfl := Except.ok.inj h
        exact ⟨rfl, if_neg hlong⟩

/-- Segments that can be followed lead to the same way in a tree that keeps the folders. -/
theorem follow_keeps (hkeeps : KeepsFolders root root') {segments : List (List Char)} {q : Place}
    (h : segments.foldlM (step root) (placeAt root way) = .ok q) :
    q = placeAt root q.way ∧
      segments.foldlM (step root') (placeAt root' way) = .ok (placeAt root' q.way) := by
  induction segments generalizing way with
  | nil =>
    obtain rfl := Except.ok.inj h
    exact ⟨rfl, rfl⟩
  | cons segment rest ih =>
    rw [List.foldlM_cons] at h ⊢
    obtain ⟨p, hp, hrest⟩ := bind_eq_ok.1 h
    obtain ⟨hpway, hstep⟩ := step_keeps hkeeps hp
    rw [hpway] at hrest
    obtain ⟨hq, hfollow⟩ := ih hrest
    exact ⟨hq, bind_eq_ok.2 ⟨_, hstep, hfollow⟩⟩

/-- One more segment leads to a folder or to a place that has a folder above it. -/
theorem folder_or_room_of_step {segment : List Char} {q : Place}
    (h : step root (placeAt root way) segment = .ok q) :
    (∃ inside, root.find? q.way = some (.folder inside)) ∨ Room root q.way := by
  obtain ⟨inside, hinside⟩ := exists_folder_of_step h
  rw [step_placeAt hinside] at h
  split at h
  · obtain rfl := Except.ok.inj h
    exact Or.inl ⟨inside, hinside⟩
  · split at h
    · obtain rfl := Except.ok.inj h
      left
      rcases List.eq_nil_or_concat way with rfl | ⟨above, name, rfl⟩
      · exact ⟨inside, hinside⟩
      · rw [List.concat_eq_append] at hinside ⊢
        rw [placeAt, List.dropLast_concat]
        exact Folder.exists_folder_of_find?_append (List.cons_ne_nil name []) hinside
    · split at h
      · cases h
      · obtain rfl := Except.ok.inj h
        exact Or.inr (Folder.room_append hinside _)

theorem folder_or_room_of_follow {segments : List (List Char)} {q : Place} (hne : segments ≠ [])
    (h : segments.foldlM (step root) (placeAt root way) = .ok q) :
    (∃ inside, root.find? q.way = some (.folder inside)) ∨ Room root q.way := by
  induction segments generalizing way with
  | nil => exact absurd rfl hne
  | cons segment rest ih =>
    rw [List.foldlM_cons] at h
    obtain ⟨p, hp, hrest⟩ := bind_eq_ok.1 h
    cases rest with
    | nil =>
      obtain rfl := Except.ok.inj hrest
      exact folder_or_room_of_step hp
    | cons next rest =>
      rw [(step_keeps (fun _ inside h => ⟨inside, h⟩) hp).1] at hrest
      exact ih (List.cons_ne_nil next rest) hrest

theorem origin_eq (d : Disk) (path : String) :
    d.origin path = placeAt d.root (if Path.isAbsolute path then [] else d.here) := by
  unfold origin
  split <;> rfl

theorem place_eq_ok {p : Place} :
    d.place path = .ok p ↔ checkPath path = .ok () ∧
      (path.toList.splitOn '/').foldlM (step d.root) (d.origin path) = .ok p := by
  unfold place
  rw [bind_eq_ok]
  exact ⟨fun ⟨_, hcheck, h⟩ => ⟨hcheck, h⟩, fun ⟨hcheck, h⟩ => ⟨(), hcheck, h⟩⟩

/-- Where a path leads, something stands above what is no folder. -/
theorem room_of_place {p : Place} (h : d.place path = .ok p)
    (hno : ∀ inside, d.root.find? p.way ≠ some (.folder inside)) : Room d.root p.way := by
  obtain ⟨-, hfollow⟩ := place_eq_ok.1 h
  rw [origin_eq] at hfollow
  rcases folder_or_room_of_follow (List.splitOn_ne_nil _ _) hfollow with ⟨inside, hinside⟩ | hroom
  · exact absurd hinside (hno inside)
  · exact hroom

/-! ### Growth -/

/-- A disk whose tree has grown while the working directory stayed. -/
structure Grows (New : List String → Prop) (d d' : Disk) : Prop where
  root : Folder.Grows New d.root d'.root
  here : d'.here = d.here

theorem Grows.refl (New : List String → Prop) (d : Disk) : Grows New d d := ⟨.refl New d.root, rfl⟩

theorem Grows.trans {d'' : Disk} (h : Grows New d d') (h' : Grows New d' d'') : Grows New d d'' :=
  ⟨h.root.trans h'.root, h'.here.trans h.here⟩

theorem Grows.mono (hnew : ∀ way, New way → New' way) (h : Grows New d d') : Grows New' d d' :=
  ⟨h.root.mono hnew, h.here⟩

theorem Grows.keepsFolders (h : Grows New d d') : KeepsFolders d.root d'.root := by
  intro way inside hinside
  obtain ⟨inside', hinside', -⟩ := h.root.folder hinside
  exact ⟨inside', hinside'⟩

theorem Grows.origin (h : Grows New d d') (path : String) :
    d'.origin path = placeAt d'.root (d.origin path).way := by
  rw [origin_eq, origin_eq, h.here]
  rfl

theorem Grows.place (h : Grows New d d') {p : Place} (hp : d.place path = .ok p) :
    p.node = d.root.find? p.way ∧ d'.place path = .ok (placeAt d'.root p.way) := by
  obtain ⟨hcheck, hfollow⟩ := place_eq_ok.1 hp
  have horigin : d.origin path = placeAt d.root (d.origin path).way := by rw [origin_eq]; rfl
  rw [horigin] at hfollow
  obtain ⟨hsame, hfollow'⟩ := follow_keeps h.keepsFolders hfollow
  refine ⟨by rw [hsame]; rfl, place_eq_ok.2 ⟨hcheck, ?_⟩⟩
  rw [h.origin, hfollow']

theorem node_of_place {p : Place} (h : d.place path = .ok p) : p.node = d.root.find? p.way :=
  ((Grows.refl (fun _ => False) d).place h).1

theorem isFolder_iff : d.isFolder path = true ↔
    ∃ p inside, d.place path = .ok p ∧ d.root.find? p.way = some (.folder inside) := by
  unfold isFolder node
  constructor
  · intro h
    rcases hp : d.place path with fault | p
    · rw [hp] at h
      cases h
    · rw [hp] at h
      have hnode := node_of_place hp
      rcases hn : p.node with _ | _ | inside
      · simp [bind, Except.bind, hn, throw, throwThe, MonadExceptOf.throw] at h
      · simp [bind, Except.bind, hn, pure, Except.pure] at h
      · exact ⟨p, inside, rfl, hnode ▸ hn⟩
  · rintro ⟨p, inside, hp, hinside⟩
    rw [← node_of_place hp] at hinside
    simp [hp, bind, Except.bind, hinside, pure, Except.pure]

theorem Grows.isFolder (h : Grows New d d') (hpath : d.isFolder path = true) :
    d'.isFolder path = true := by
  obtain ⟨p, inside, hp, hinside⟩ := isFolder_iff.1 hpath
  obtain ⟨inside', hinside', -⟩ := h.root.folder hinside
  exact isFolder_iff.2 ⟨_, inside', (h.place hp).2, hinside'⟩

/-! ### Making folders -/

theorem makeFolder_eq_ok : d.makeFolder path = .ok d' ↔
    ∃ p, d.place path = .ok p ∧ d.root.find? p.way = none ∧
      d' = d.putAt (.folder .empty) p.way := by
  unfold makeFolder
  rw [bind_eq_ok]
  refine exists_congr fun p => and_congr_right fun hp => ?_
  rw [← node_of_place hp]
  rcases p.node with _ | node
  · exact ⟨fun h => ⟨rfl, pure_eq_ok.1 h⟩, fun h => pure_eq_ok.2 h.2⟩
  · exact iff_of_false nofun nofun

theorem grows_makeFolder (h : d.makeFolder path = .ok d') :
    Grows (fun _ => False) d d' ∧ d'.isFolder path = true := by
  obtain ⟨p, hp, hnone, rfl⟩ := makeFolder_eq_ok.1 h
  have hroom : Room d.root p.way := room_of_place hp fun inside => by rw [hnone]; exact nofun
  have hgrows : Grows (fun _ => False) d (d.putAt (.folder .empty) p.way) :=
    ⟨Folder.grows_putAt_empty hroom hnone, rfl⟩
  refine ⟨hgrows, isFolder_iff.2 ⟨_, .empty, (hgrows.place hp).2, ?_⟩⟩
  exact Folder.find?_putAt_self hroom _

theorem makeFolder_of_isFolder (h : d.isFolder path = true) :
    d.makeFolder path = .error .present := by
  obtain ⟨p, inside, hp, hinside⟩ := isFolder_iff.1 h
  rw [← node_of_place hp] at hinside
  rw [makeFolder, hp]
  simp [bind, Except.bind, hinside, throw, throwThe, MonadExceptOf.throw]

/-- A folder that cannot be made is no fault when it is there. -/
theorem isFolder_of_settled {fault : Fault}
    (h : (if d.isFolder path then (Except.ok (), d) else (.error fault, d)) = (.ok (), d')) :
    d' = d ∧ d.isFolder path = true := by
  split at h
  · next hfolder => exact ⟨(Prod.mk.inj h).2.symm, hfolder⟩
  · cases (Prod.mk.inj h).1

theorem grows_makeFoldersWithin {fuel : Nat} (h : makeFoldersWithin fuel d path = (.ok (), d')) :
    Grows (fun _ => False) d d' ∧ (path = "" ∨ d'.isFolder path = true) := by
  induction fuel using Nat.strongRecOn generalizing d path d' with
  | _ fuel ih =>
    rw [makeFoldersWithin.eq_def] at h
    split at h
    · next hempty =>
      obtain rfl := (Prod.mk.inj h).2
      exact ⟨.refl _ _, Or.inl hempty⟩
    · rcases hmake : d.makeFolder path with (_ | _ | _ | _ | _ | _ | _) | made
      case ok =>
        rw [hmake] at h
        obtain rfl := (Prod.mk.inj h).2
        obtain ⟨hgrows, hfolder⟩ := grows_makeFolder hmake
        exact ⟨hgrows, Or.inr hfolder⟩
      case error.notFound =>
        rw [hmake] at h
        cases fuel with
        | zero => cases (Prod.mk.inj h).1
        | succ fuel =>
          cases hparent : Path.parent? path with
          | none =>
            rw [hparent] at h
            cases (Prod.mk.inj h).1
          | some parent =>
            rw [hparent] at h
            dsimp only at h
            rcases habove : makeFoldersWithin fuel d parent with ⟨_ | _, above⟩
            · rw [habove] at h
              cases (Prod.mk.inj h).1
            · rw [habove] at h
              dsimp only at h
              obtain ⟨hgrows, -⟩ := ih fuel (Nat.lt_succ_self fuel) habove
              -- the folder above is there now, so the folder is tried again
              rcases hagain : above.makeFolder path with fault | made
              · rw [hagain] at h
                obtain ⟨rfl, hfolder⟩ := isFolder_of_settled h
                exact ⟨hgrows, Or.inr hfolder⟩
              · rw [hagain] at h
                obtain rfl := (Prod.mk.inj h).2
                obtain ⟨hgrows', hfolder⟩ := grows_makeFolder hagain
                exact ⟨hgrows.trans hgrows', Or.inr hfolder⟩
      all_goals
        rw [hmake] at h
        obtain ⟨rfl, hfolder⟩ := isFolder_of_settled h
        exact ⟨.refl _ _, Or.inr hfolder⟩

/-- Folders that are there need not be made. -/
theorem makeFolders_eq_self (h : path = "" ∨ d.isFolder path = true) :
    d.makeFolders path = (.ok (), d) := by
  rw [makeFolders, makeFoldersWithin.eq_def]
  split
  · rfl
  · next hne =>
    have hfolder := h.resolve_left hne
    rw [makeFolder_of_isFolder hfolder]
    exact if_pos hfolder

/-! ### Writing a file -/

theorem putAt_eq_self {node : Node} (h : Room d.root way) (hnode : d.root.find? way = some node) :
    d.putAt node way = d := by
  rw [putAt, Folder.putAt_eq_self h hnode]

theorem write_eq_ok {text : String} : d.write path text = .ok d' ↔
    withoutSlashes path = path ∧ ∃ p, d.place path = .ok p ∧
      (∀ inside, d.root.find? p.way ≠ some (.folder inside)) ∧
      d' = d.putAt (.file (.text text)) p.way := by
  have hcheck : ∀ p, d.place path = .ok p → checkPath path = .ok () :=
    fun p hp => (place_eq_ok.1 hp).1
  unfold write
  constructor
  · intro h
    obtain ⟨_, -, h⟩ := bind_eq_ok.1 h
    dsimp only at h
    split at h
    · next hbare =>
      obtain ⟨p, hp, h⟩ := bind_eq_ok.1 h
      have hnode := node_of_place hp
      split at h
      · cases h
      · next hno =>
        refine ⟨hbare, p, hp, fun inside => ?_, pure_eq_ok.1 h⟩
        rw [← hnode]
        exact hno inside
    · obtain ⟨_, -, h⟩ := bind_eq_ok.1 h
      cases h
  · rintro ⟨hbare, p, hp, hno, rfl⟩
    refine bind_eq_ok.2 ⟨(), hcheck p hp, ?_⟩
    rw [if_pos hbare]
    refine bind_eq_ok.2 ⟨p, hp, ?_⟩
    rw [← node_of_place hp] at hno
    split
    · next inside hnode => exact absurd hnode (hno inside)
    · rfl

theorem grows_write {text : String} (h : d.write path text = .ok d') :
    ∃ p, d'.place path = .ok p ∧ d'.root.find? p.way = some (.file (.text text)) ∧
      Grows (· = p.way) d d' ∧ d'.write path text = .ok d' := by
  obtain ⟨hbare, p, hp, hno, rfl⟩ := write_eq_ok.1 h
  have hroom := room_of_place hp hno
  have hgrows : Grows (· = p.way) d (d.putAt (.file (.text text)) p.way) :=
    ⟨Folder.grows_putAt_file hroom hno _, rfl⟩
  have hplace := (hgrows.place hp).2
  have hfind : (d.root.putAt (.file (.text text)) p.way).find? p.way =
      some (.file (.text text)) := Folder.find?_putAt_self hroom _
  refine ⟨_, hplace, hfind, hgrows, write_eq_ok.2 ⟨hbare, _, hplace, ?_, ?_⟩⟩
  · intro inside hfolder
    exact absurd (hfind.symm.trans hfolder) nofun
  · have hroom' := room_of_place hplace fun inside hfolder =>
      absurd (hfind.symm.trans hfolder) nofun
    exact (putAt_eq_self hroom' hfind).symm

end Disk

namespace Output

open Disk (Grows)

variable {d d' : Disk} {path text : String}

def HasRoom (d : Disk) (path : String) : Prop :=
  ∀ parent, Path.parent? path = some parent → parent = "" ∨ d.isFolder parent = true

theorem grows_makeRoom (h : makeRoom d path = (.ok (), d')) :
    Grows (fun _ => False) d d' ∧ HasRoom d' path := by
  unfold makeRoom at h
  split at h
  · next hnone =>
    obtain rfl := (Prod.mk.inj h).2
    exact ⟨.refl _ _, fun parent hparent => absurd (hnone.symm.trans hparent) nofun⟩
  · next parent hparent =>
    split at h
    · next made hmade =>
      obtain rfl := (Prod.mk.inj h).2
      obtain ⟨hgrows, hfolder⟩ := Disk.grows_makeFoldersWithin hmade
      refine ⟨hgrows, fun parent' hparent' => ?_⟩
      obtain rfl := Option.some.inj (hparent.symm.trans hparent')
      exact hfolder
    · cases (Prod.mk.inj h).1

theorem makeRoom_eq_self (h : HasRoom d path) : makeRoom d path = (.ok (), d) := by
  unfold makeRoom
  split
  · rfl
  · next parent hparent => rw [Disk.makeFolders_eq_self (h parent hparent)]

/-- What writing does to a disk, and that it does nothing the second time. -/
theorem grows_write (h : write d path text = (.ok (), d')) :
    ∃ p, d'.place path = .ok p ∧ d'.root.find? p.way = some (.file (.text text)) ∧
      Grows (· = p.way) d d' ∧ write d' path text = (.ok (), d') := by
  unfold write at h
  split at h
  · cases (Prod.mk.inj h).1
  · next made hmade =>
    obtain ⟨hgrows, hroom⟩ := grows_makeRoom hmade
    split at h
    · next written hwritten =>
      obtain rfl := (Prod.mk.inj h).2
      obtain ⟨p, hp, hfind, hgrows', hagain⟩ := Disk.grows_write hwritten
      refine ⟨p, hp, hfind, (hgrows.mono fun _ h => h.elim).trans hgrows', ?_⟩
      have hroom' : HasRoom written path := fun parent hparent =>
        (hroom parent hparent).imp_right hgrows'.isFolder
      simp only [write, makeRoom_eq_self hroom', hagain]
    · cases (Prod.mk.inj h).1

end Output

end SectionCompiler
