import SectionCompiler.Proofs.Finding
import SectionCompiler.Settings.Search

/-! The search for a settings file. The folders from a path upwards form one sequence, which ends
with the first folder that holds the mark of a project. The file that is found lies in the first of
them that holds a settings file, and it is the one with the preferred name. -/

namespace SectionCompiler

namespace Path

variable {path parent : String}

theorem length_flatten_le (separator : List Char) (xs : List (List Char)) :
    xs.flatten.length ≤ (separator.intercalate xs).length := by
  induction xs with
  | nil => simp
  | cons x rest ih =>
    cases rest with
    | nil => simp
    | cons next rest =>
      rw [List.flatten_cons, List.intercalate_cons_cons]
      simp only [List.length_append] at ih ⊢
      omega

theorem length_intercalate_append (separator : List Char) (xs ys : List (List Char)) :
    (separator.intercalate xs).length + ys.flatten.length ≤
      (separator.intercalate (xs ++ ys)).length := by
  induction xs with
  | nil => simpa using length_flatten_le separator ys
  | cons x rest ih =>
    cases rest with
    | nil =>
      cases ys with
      | nil => simp
      | cons y ys =>
        have hle := length_flatten_le separator (y :: ys)
        simp only [List.cons_append, List.nil_append, List.intercalate_cons_cons,
          List.intercalate_singleton, List.length_append]
        omega
    | cons next rest =>
      simp only [List.cons_append, List.intercalate_cons_cons, List.length_append] at ih ⊢
      omega

theorem splitFront_append (cs : List Char) : (splitFront cs).1 ++ (splitFront cs).2 = cs := by
  unfold splitFront
  split <;> rfl

/-- The segments that are kept of a body when the last one that counts is dropped. -/
theorem exists_dropped {segments rest : List (List Char)} {x : List Char}
    (h : segments.reverse.dropWhile isEmptySegment = x :: rest) :
    x ≠ [] ∧ ∃ dropped, segments = (rest.dropWhile isEmptySegment).reverse ++ dropped ∧
      x ∈ dropped := by
  have hx := List.head?_dropWhile_not isEmptySegment segments.reverse
  have hsplit := List.takeWhile_append_dropWhile (p := isEmptySegment) (l := segments.reverse)
  have hrest := List.takeWhile_append_dropWhile (p := isEmptySegment) (l := rest)
  rw [h] at hx hsplit
  refine ⟨?_, (segments.reverse.takeWhile isEmptySegment ++
    x :: rest.takeWhile isEmptySegment).reverse, ?_, by simp⟩
  · rintro rfl
    cases hx
  · rw [← List.reverse_append, List.append_assoc, List.cons_append, hrest, hsplit,
      List.reverse_reverse]

theorem length_parent?_lt (h : parent? path = some parent) : parent.length < path.length := by
  have hpath := splitFront_append path.toList
  rw [← String.length_toList, ← String.length_toList, ← hpath]
  unfold parent? at h
  dsimp only at h
  split at h
  · next x rest hrest =>
    obtain rfl := Option.some.inj h
    obtain ⟨hx, dropped, hsegments, hmem⟩ := exists_dropped hrest
    have hle := length_intercalate_append ['/'] (rest.dropWhile isEmptySegment).reverse dropped
    rw [← hsegments, List.intercalate_splitOn] at hle
    have hpos := List.length_pos_iff.2 (List.flatten_ne_nil_iff.2 ⟨x, hmem, hx⟩)
    rw [String.toList_ofList, List.length_append, List.length_append]
    omega
  · split at h
    · next hfront =>
      obtain rfl := Option.some.inj h
      simp [hfront]
    · cases h

end Path

namespace Disk

variable {d : Disk} {dir name : String} {node : Node}

/-- The folder at a path holds a node of some name, and the path of the node is one that a disk
accepts. The empty path stands for the working directory. -/
def Holds (d : Disk) (dir name : String) (node : Node) : Prop :=
  ∃ way inside,
    (dir.toList.splitOn '/').foldlM (step d.root) (d.origin dir) = .ok (placeAt d.root way) ∧
      d.root.find? way = some (.folder inside) ∧ inside.child? name = some node ∧
      checkPath (Path.join dir name) = .ok ()

theorem splitOn_join (hname : IsName name) (dir : String) :
    ∃ segments, (Path.join dir name).toList.splitOn '/' = segments ++ [name.toList] ∧
      (dir.toList.splitOn '/' = segments ∨ dir.toList.splitOn '/' = segments ++ [[]]) := by
  by_cases hdir : dir = ""
  · refine ⟨[], ?_, Or.inr (hdir ▸ rfl)⟩
    rw [Path.toList_join hname, if_pos (Or.inl hdir), hdir]
    exact Path.splitOn_name hname
  · have hway : ∀ n ∈ [name], IsName n := List.forall_mem_singleton.2 hname
    simpa only [List.foldl_cons, List.foldl_nil, List.map_cons, List.map_nil]
      using Path.splitOn_foldl_join hdir hway

theorem origin_join (hname : IsName name) (dir : String) :
    d.origin (Path.join dir name) = d.origin dir := by
  by_cases hdir : dir = ""
  · have hrelative : Path.isAbsolute name = false := by
      rw [← Bool.not_eq_true]
      intro habsolute
      obtain ⟨rest, hrest⟩ := Path.isAbsolute_iff.1 habsolute
      exact hname.2.2.2 (hrest ▸ List.mem_cons_self)
    have hjoin : Path.join dir name = name := by
      rw [hdir, Path.join, if_neg (by rw [hrelative]; decide), if_pos (Or.inl rfl),
        String.empty_append]
    rw [hjoin, hdir, origin_eq, origin_eq, hrelative]
    rfl
  · rw [origin_eq, origin_eq, Path.isAbsolute_join_iff hdir hname]

theorem follow_trailing_iff {segments : List (List Char)} {start way : List String}
    {inside : Folder} (h : d.root.find? way = some (.folder inside)) :
    (segments ++ [[]]).foldlM (step d.root) (placeAt d.root start) = .ok (placeAt d.root way) ↔
      segments.foldlM (step d.root) (placeAt d.root start) = .ok (placeAt d.root way) := by
  refine ⟨follow_of_trailing, fun hfollow => ?_⟩
  have hstep : step d.root (placeAt d.root way) [] = .ok (placeAt d.root way) := by
    rw [step_placeAt h, if_pos (Or.inl rfl)]
  rw [List.foldlM_append, hfollow]
  exact bind_eq_ok.2 ⟨_, rfl, bind_eq_ok.2 ⟨_, hstep, rfl⟩⟩

/-- One step by a name leads to what the folder holds under the name. -/
theorem step_name_iff {way : List String} (hname : IsName name)
    (hshort : name.utf8ByteSize ≤ maxName) :
    (∃ p, step d.root (placeAt d.root way) name.toList = .ok p ∧ p.node = some node) ↔
      ∃ inside, d.root.find? way = some (.folder inside) ∧ inside.child? name = some node := by
  obtain ⟨hempty, hdot, hdots, -⟩ := hname
  have hstep : ∀ inside, d.root.find? way = some (.folder inside) →
      step d.root (placeAt d.root way) name.toList = .ok (placeAt d.root (way ++ [name])) := by
    intro inside hinside
    rw [step_placeAt hinside, if_neg, if_neg, String.ofList_toList, if_neg (Nat.not_lt.2 hshort)]
    · exact fun h => hdots (String.toList_inj.1 h)
    · rintro (h | h)
      · exact hempty (String.toList_eq_nil_iff.1 h)
      · exact hdot (String.toList_inj.1 h)
  have hnode : ∀ inside, d.root.find? way = some (.folder inside) →
      (placeAt d.root (way ++ [name])).node = inside.child? name := by
    intro inside hinside
    rw [placeAt, Folder.find?_append hinside, Folder.find?_singleton]
  constructor
  · rintro ⟨p, hp, hpnode⟩
    obtain ⟨inside, hinside⟩ := exists_folder_of_step hp
    obtain rfl := Except.ok.inj ((hstep inside hinside).symm.trans hp)
    exact ⟨inside, hinside, hnode inside hinside ▸ hpnode⟩
  · rintro ⟨inside, hinside, hchild⟩
    exact ⟨_, hstep inside hinside, hnode inside hinside ▸ hchild⟩

theorem node_eq_ok {path : String} : d.node path = .ok node ↔
    ∃ p, d.place path = .ok p ∧ p.node = some node := by
  unfold Disk.node
  rw [bind_eq_ok]
  refine exists_congr fun p => and_congr_right fun _ => ?_
  rcases p.node with _ | node'
  · exact iff_of_false nofun nofun
  · exact pure_eq_ok.trans (by rw [Option.some.injEq, eq_comm])

/-- What the path of a name in a folder leads to is what the folder holds under the name. -/
theorem node_join_iff (hname : IsName name) (hshort : name.utf8ByteSize ≤ maxName) :
    d.node (Path.join dir name) = .ok node ↔ d.Holds dir name node := by
  obtain ⟨segments, hsplit, hsegments⟩ := splitOn_join hname dir
  have horigin := origin_join (d := d) hname dir
  simp only [node_eq_ok, place_eq_ok, hsplit, horigin, Holds]
  rw [origin_eq]
  generalize (if Path.isAbsolute dir = true then [] else d.here) = start
  have htrailing : ∀ way inside, d.root.find? way = some (.folder inside) →
      ((dir.toList.splitOn '/').foldlM (step d.root) (placeAt d.root start) =
          .ok (placeAt d.root way) ↔
        segments.foldlM (step d.root) (placeAt d.root start) = .ok (placeAt d.root way)) := by
    intro way inside hinside
    rcases hsegments with h | h
    · rw [h]
    · rw [h, follow_trailing_iff hinside]
  constructor
  · rintro ⟨p, ⟨hcheck, hfollow⟩, hnode⟩
    rw [List.foldlM_append] at hfollow
    obtain ⟨q, hq, hlast⟩ := bind_eq_ok.1 hfollow
    obtain ⟨p', hp', hpure⟩ := bind_eq_ok.1 hlast
    obtain rfl := Except.ok.inj hpure
    have hplace := (follow_keeps (fun _ inside h => ⟨inside, h⟩) hq).1
    rw [hplace] at hp' hq
    obtain ⟨inside, hinside, hchild⟩ := (step_name_iff hname hshort).1 ⟨p', hp', hnode⟩
    exact ⟨q.way, inside, (htrailing _ inside hinside).2 hq, hinside, hchild, hcheck⟩
  · rintro ⟨way, inside, hfollow, hinside, hchild, hcheck⟩
    obtain ⟨p, hp, hnode⟩ := (step_name_iff hname hshort).2 ⟨inside, hinside, hchild⟩
    refine ⟨p, ⟨hcheck, ?_⟩, hnode⟩
    rw [List.foldlM_append]
    exact bind_eq_ok.2 ⟨_, (htrailing way inside hinside).1 hfollow, bind_eq_ok.2 ⟨p, hp, rfl⟩⟩

end Disk

namespace Settings

open Disk (Holds)

variable {d : Disk} {start dir : String}

def HoldsFile (d : Disk) (dir name : String) : Prop := ∃ content, d.Holds dir name (.file content)

/-- The folder at a path holds the mark of a project, be it a file or a folder. -/
def IsMarked (d : Disk) (dir : String) : Prop := ∃ node, d.Holds dir ".git" node

theorem isFile_join_iff {name : String} (hname : name ∈ fileNames) :
    d.isFile (Path.join dir name) = true ↔ HoldsFile d dir name := by
  have hall : ∀ name ∈ fileNames, IsName name ∧ name.utf8ByteSize ≤ Disk.maxName := by decide
  obtain ⟨hvalid, hshort⟩ := hall name hname
  simp only [HoldsFile, ← Disk.node_join_iff hvalid hshort, Disk.isFile]
  rcases d.node (Path.join dir name) with fault | (content | inside) <;> simp

theorem has_mark_iff : d.has (Path.join dir projectMark) = true ↔ IsMarked d dir := by
  have hmark : IsName projectMark ∧ projectMark.utf8ByteSize ≤ Disk.maxName := by decide
  change _ ↔ ∃ node, d.Holds dir projectMark node
  simp only [← Disk.node_join_iff hmark.1 hmark.2, Disk.has]
  rcases d.node (Path.join dir projectMark) with fault | node <;> simp [Except.isOk, Except.toBool]

/-- The folders of a search: the path where it starts, then the parent of each before, up to the
first that is marked, or to the one that has no parent. -/
structure IsClimb (d : Disk) (start : String) (dirs : List String) : Prop where
  head : dirs.head? = some start
  chain : dirs.IsChain fun dir above => Path.parent? dir = some above
  unmarked : ∀ dir ∈ dirs.dropLast, ¬ IsMarked d dir
  last : ∀ dir ∈ dirs.getLast?, IsMarked d dir ∨ Path.parent? dir = none

theorem isClimb_singleton_iff : IsClimb d start [dir] ↔
    dir = start ∧ (IsMarked d dir ∨ Path.parent? dir = none) := by
  constructor
  · exact fun h => ⟨Option.some.inj h.head, h.last dir rfl⟩
  · rintro ⟨rfl, h⟩
    exact ⟨rfl, .singleton dir, fun _ hm => absurd hm List.not_mem_nil,
      fun _ hm => Option.some.inj hm ▸ h⟩

theorem isClimb_cons_iff {dirs : List String} (hne : dirs ≠ []) : IsClimb d start (dir :: dirs) ↔
    dir = start ∧ ¬ IsMarked d dir ∧ ∃ parent, Path.parent? dir = some parent ∧
      IsClimb d parent dirs := by
  obtain ⟨next, rest, rfl⟩ := List.exists_cons_of_ne_nil hne
  constructor
  · rintro ⟨hhead, hchain, hunmarked, hlast⟩
    rw [List.isChain_cons_cons] at hchain
    rw [List.dropLast_cons_cons, List.forall_mem_cons] at hunmarked
    rw [List.getLast?_cons_cons] at hlast
    exact ⟨Option.some.inj hhead, hunmarked.1, next, hchain.1, rfl, hchain.2, hunmarked.2, hlast⟩
  · rintro ⟨rfl, hdir, parent, hparent, hhead, hchain, hunmarked, hlast⟩
    obtain rfl := Option.some.inj hhead
    refine ⟨rfl, List.isChain_cons_cons.2 ⟨hparent, hchain⟩, ?_, ?_⟩
    · rw [List.dropLast_cons_cons, List.forall_mem_cons]
      exact ⟨hdir, hunmarked⟩
    · rw [List.getLast?_cons_cons]
      exact hlast

theorem not_isClimb_nil : ¬ IsClimb d start [] := fun h => nomatch h.head

theorem IsClimb.unique {dirs dirs' : List String} (h : IsClimb d start dirs)
    (h' : IsClimb d start dirs') : dirs = dirs' := by
  induction dirs generalizing start dirs' with
  | nil => exact absurd h not_isClimb_nil
  | cons dir rest ih =>
    have hne : dirs' ≠ [] := by
      rintro rfl
      exact not_isClimb_nil h'
    obtain ⟨dir', rest', rfl⟩ := List.exists_cons_of_ne_nil hne
    by_cases hrest : rest = []
    · subst hrest
      obtain ⟨rfl, hend⟩ := isClimb_singleton_iff.1 h
      by_cases hrest' : rest' = []
      · subst hrest'
        rw [(isClimb_singleton_iff.1 h').1]
      · obtain ⟨rfl, hunmarked, parent, hparent, -⟩ := (isClimb_cons_iff hrest').1 h'
        exact absurd (hend.resolve_left hunmarked) (by simp [hparent])
    · obtain ⟨rfl, hunmarked, parent, hparent, hclimb⟩ := (isClimb_cons_iff hrest).1 h
      by_cases hrest' : rest' = []
      · subst hrest'
        obtain ⟨rfl, hend⟩ := isClimb_singleton_iff.1 h'
        exact absurd (hend.resolve_left hunmarked) (by simp [hparent])
      · obtain ⟨rfl, -, parent', hparent', hclimb'⟩ := (isClimb_cons_iff hrest').1 h'
        obtain rfl := Option.some.inj (hparent.symm.trans hparent')
        rw [ih hclimb hclimb']

theorem isClimb_climb {fuel : Nat} (h : start.length ≤ fuel) :
    IsClimb d start (climb d (some projectMark) fuel start) := by
  induction fuel generalizing start with
  | zero =>
    have hparent : Path.parent? start = none := by
      by_contra hne
      obtain ⟨parent, hparent⟩ := Option.ne_none_iff_exists'.1 hne
      have hlt := Path.length_parent?_lt hparent
      omega
    exact isClimb_singleton_iff.2 ⟨rfl, Or.inr hparent⟩
  | succ fuel ih =>
    rw [climb, Option.any_some]
    split
    · next hmark => exact isClimb_singleton_iff.2 ⟨rfl, Or.inl (has_mark_iff.1 hmark)⟩
    · next hmark =>
      split
      · next parent hparent =>
        have hlt := Path.length_parent?_lt hparent
        have hclimb : IsClimb d parent (climb d (some projectMark) fuel parent) := ih (by omega)
        refine (isClimb_cons_iff fun hnil => not_isClimb_nil (hnil ▸ hclimb)).2 ⟨rfl, ?_, ?_⟩
        · exact fun hmarked => hmark (has_mark_iff.2 hmarked)
        · exact ⟨parent, hparent, hclimb⟩
      · next hparent => exact isClimb_singleton_iff.2 ⟨rfl, Or.inr hparent⟩

theorem find?_eq (d : Disk) (start : String) : find? d start =
    (climb d (some projectMark) start.length start).findSome? (inFolder? d) := by
  rw [find?, ancestors, List.reverse_reverse]

/-- A name is the first of the names of settings files under which a folder holds a file. -/
def IsPreferred (d : Disk) (dir name : String) : Prop :=
  ∃ before after, ["iniweave.toml", "iniweave.yaml", "iniweave.yml"] = before ++ name :: after ∧
    HoldsFile d dir name ∧ ∀ other ∈ before, ¬ HoldsFile d dir other

theorem inFolder?_eq_some {path : String} : inFolder? d dir = some path ↔
    ∃ name, IsPreferred d dir name ∧ path = Path.join dir name := by
  unfold inFolder?
  rw [List.find?_map, Option.map_eq_some_iff]
  refine exists_congr fun name => and_congr ?_ eq_comm
  rw [List.find?_eq_some_iff_append]
  simp only [Function.comp_apply, Bool.not_eq_true']
  constructor
  · rintro ⟨hname, before, after, hsplit, hbefore⟩
    refine ⟨before, after, hsplit, ?_, fun other hother hholds => ?_⟩
    · exact (isFile_join_iff (by simp [hsplit])).1 hname
    · have hfile := (isFile_join_iff (by simp [hsplit, hother])).2 hholds
      exact absurd ((hbefore other hother).symm.trans hfile) nofun
  · rintro ⟨before, after, hsplit, hname, hbefore⟩
    have hnames : fileNames = before ++ name :: after := hsplit
    refine ⟨(isFile_join_iff (by simp [hnames])).2 hname, before, after, hnames, ?_⟩
    intro other hother
    rw [← Bool.not_eq_true, isFile_join_iff (by simp [hnames, hother])]
    exact hbefore other hother

theorem inFolder?_eq_none : inFolder? d dir = none ↔
    ∀ name ∈ ["iniweave.toml", "iniweave.yaml", "iniweave.yml"], ¬ HoldsFile d dir name := by
  unfold inFolder?
  rw [List.find?_eq_none, List.forall_mem_map]
  exact forall₂_congr fun name hname => not_congr (isFile_join_iff hname)

/-- The settings file that is found is the preferred one of the first folder of the climb that holds
any. There is one exactly when some folder of the climb holds one. -/
theorem finds_nearest (d : Disk) (start : String) :
    ∃ dirs, (∀ dirs', IsClimb d start dirs' ↔ dirs' = dirs) ∧
      ((∃ path, find? d start = some path) ↔ ∃ dir ∈ dirs,
        ∃ name ∈ ["iniweave.toml", "iniweave.yaml", "iniweave.yml"], HoldsFile d dir name) ∧
      ∀ path, find? d start = some path → ∃ before dir after name, dirs = before ++ dir :: after ∧
        (∀ nearer ∈ before, ∀ name ∈ ["iniweave.toml", "iniweave.yaml", "iniweave.yml"],
          ¬ HoldsFile d nearer name) ∧
        IsPreferred d dir name ∧ path = Path.join dir name := by
  have hclimb : IsClimb d start (climb d (some projectMark) start.length start) :=
    isClimb_climb le_rfl
  rw [find?_eq]
  refine ⟨_, fun dirs' => ⟨fun h => h.unique hclimb, ?_⟩, ?_, ?_⟩
  · rintro rfl
    exact hclimb
  · rw [← Option.isSome_iff_exists, List.findSome?_isSome_iff]
    refine exists_congr fun dir => and_congr_right fun _ => ?_
    rw [← not_iff_not, Option.not_isSome_iff_eq_none, inFolder?_eq_none]
    push Not
    rfl
  · intro path hpath
    obtain ⟨before, dir, after, hdirs, hdir, hbefore⟩ := List.findSome?_eq_some_iff.1 hpath
    obtain ⟨name, hname, hjoin⟩ := inFolder?_eq_some.1 hdir
    exact ⟨before, dir, after, name, hdirs,
      fun nearer hmem => inFolder?_eq_none.1 (hbefore nearer hmem), hname, hjoin⟩

/-- A settings file beside the project, one with the less preferred name at its top, and in the
folder between a folder that only looks like one. -/
def harbour : Disk where
  root := .file "iniweave.toml" (.text "") <|
    .folder "proj"
      (.folder ".git" .empty <| .file "iniweave.yml" (.text "") <|
        .folder "src" (.folder "iniweave.toml" .empty <| .folder "deep" .empty .empty) .empty)
      .empty
  here := ["proj", "src", "deep"]

example : findHere? harbour = some "/proj/iniweave.yml" := by decide +kernel

end Settings

end SectionCompiler
