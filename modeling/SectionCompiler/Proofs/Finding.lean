import SectionCompiler.Proofs.Absolute
import SectionCompiler.Proofs.Storing

/-! Finding files again. In a tree with names as a disk has them, the path under which a file is
found leads to that file, unless it is too long for any disk. So a tree that has grown gives the
same files with the same texts, as long as nothing new is among what is found. -/

namespace SectionCompiler

open Discovery (isPrivate publicFiles Found foundAt discover)

def IsName (name : String) : Prop :=
  name ≠ "" ∧ name ≠ "." ∧ name ≠ ".." ∧ '/' ∉ name.toList

instance (name : String) : Decidable (IsName name) := inferInstanceAs (Decidable (_ ∧ _))

namespace Folder

variable {f inside : Folder} {node : Node} {name : String} {way : List String}

def names : Folder → List String
  | empty => []
  | file name _ others => name :: others.names
  | folder name _ others => name :: others.names

/-- All names of a tree can stand in a folder, and none stands in one folder twice. -/
def IsWellNamed : Folder → Prop
  | empty => True
  | file name _ others => IsName name ∧ name ∉ others.names ∧ others.IsWellNamed
  | folder name inside others =>
    IsName name ∧ name ∉ others.names ∧ inside.IsWellNamed ∧ others.IsWellNamed

instance decidableIsWellNamed : (f : Folder) → Decidable f.IsWellNamed
  | empty => inferInstanceAs (Decidable True)
  | file _ _ others =>
    have := decidableIsWellNamed others
    inferInstanceAs (Decidable (_ ∧ _ ∧ _))
  | folder _ inside others =>
    have := decidableIsWellNamed inside
    have := decidableIsWellNamed others
    inferInstanceAs (Decidable (_ ∧ _ ∧ _ ∧ _))

theorem names_ofNode (name : String) (node : Node) (others : Folder) :
    (ofNode name node others).names = name :: others.names := by
  cases node <;> rfl

theorem isWellNamed_ofNode (name : String) (node : Node) (others : Folder) :
    (ofNode name node others).IsWellNamed ↔ IsName name ∧ name ∉ others.names ∧
      (∀ inside, node = .folder inside → inside.IsWellNamed) ∧ others.IsWellNamed := by
  cases node with
  | file content => simp [ofNode, IsWellNamed]
  | folder inside => simp [ofNode, IsWellNamed]

theorem IsWellNamed.of_child? (h : f.IsWellNamed) (hc : f.child? name = some (.folder inside)) :
    inside.IsWellNamed := by
  induction f using entries_induction with
  | empty => cases hc
  | entry first node others _ ih =>
    obtain ⟨-, -, hinside, hothers⟩ := (isWellNamed_ofNode first node others).1 h
    rw [child?_ofNode] at hc
    split at hc
    · exact hinside inside (Option.some.inj hc)
    · exact ih hothers hc

theorem IsWellNamed.of_find? (h : f.IsWellNamed) (hfind : f.find? way = some (.folder inside)) :
    inside.IsWellNamed := by
  induction way generalizing f with
  | nil =>
    obtain rfl := Node.folder.inj (Option.some.inj hfind)
    exact h
  | cons name rest ih =>
    cases rest with
    | nil => exact h.of_child? (find?_singleton f name ▸ hfind)
    | cons next rest =>
      obtain ⟨sub, hsub, hrest⟩ := exists_child?_of_find? hfind (List.cons_ne_nil next rest)
      exact ih (h.of_child? hsub) hrest

/-! ### What is found stands where it is found -/

theorem mem_publicUnder_file {content : Content} :
    way ∈ publicUnder name (some (.file content)) ↔ isPrivate name = false ∧ way = [name] := by
  rw [publicUnder_file]
  cases isPrivate name <;> simp

theorem mem_publicUnder_folder :
    way ∈ publicUnder name (some (.folder inside)) ↔
      isPrivate name = false ∧ ∃ rest ∈ publicFiles inside, way = name :: rest := by
  rw [publicUnder_folder]
  cases isPrivate name <;> simp [eq_comm]

theorem mem_publicFiles_ofNode {others : Folder} :
    way ∈ publicFiles (ofNode name node others) ↔
      way ∈ publicUnder name (some node) ∨ way ∈ publicFiles others := by
  rw [publicFiles_ofNode, List.mem_append]

theorem exists_cons_of_mem_publicUnder (h : way ∈ publicUnder name (some node)) :
    ∃ rest, way = name :: rest := by
  cases node with
  | file content => exact ⟨[], (mem_publicUnder_file.1 h).2⟩
  | folder inside =>
    obtain ⟨-, rest, -, heq⟩ := mem_publicUnder_folder.1 h
    exact ⟨rest, heq⟩

theorem exists_cons_of_mem_publicFiles (h : way ∈ publicFiles f) :
    ∃ name rest, way = name :: rest ∧ name ∈ f.names := by
  induction f using entries_induction with
  | empty => cases h
  | entry first node others _ ih =>
    rw [names_ofNode]
    rcases mem_publicFiles_ofNode.1 h with h | h
    · obtain ⟨rest, rfl⟩ := exists_cons_of_mem_publicUnder h
      exact ⟨first, rest, rfl, List.mem_cons_self⟩
    · obtain ⟨name, rest, rfl, hname⟩ := ih h
      exact ⟨name, rest, rfl, List.mem_cons_of_mem _ hname⟩

/-- A file that is found stands at the end of its way, and all names of the way are names. -/
theorem IsWellNamed.of_mem_publicFiles (h : f.IsWellNamed) (hway : way ∈ publicFiles f) :
    (∃ content, f.find? way = some (.file content)) ∧ ∀ name ∈ way, IsName name := by
  induction f using entries_induction generalizing way with
  | empty => cases hway
  | entry first node others inner ih =>
    obtain ⟨hname, hfresh, hinside, hothers⟩ := (isWellNamed_ofNode first node others).1 h
    have hfirst : (ofNode first node others).child? first = some node := by
      rw [child?_ofNode, if_pos rfl]
    rcases mem_publicFiles_ofNode.1 hway with hway | hway
    · cases node with
      | file content =>
        obtain ⟨-, rfl⟩ := mem_publicUnder_file.1 hway
        exact ⟨⟨content, by rw [find?_singleton, hfirst]⟩, List.forall_mem_singleton.2 hname⟩
      | folder inside =>
        obtain ⟨-, rest, hrest, rfl⟩ := mem_publicUnder_folder.1 hway
        obtain ⟨⟨content, hfind⟩, hnames⟩ := inner inside rfl (hinside inside rfl) hrest
        refine ⟨⟨content, ?_⟩, List.forall_mem_cons.2 ⟨hname, hnames⟩⟩
        rw [find?_cons_of_folder hfirst, hfind]
    · -- the way begins with another name, so the first entry is passed over
      obtain ⟨⟨content, hfind⟩, hnames⟩ := ih hothers hway
      obtain ⟨name, rest, rfl, hin⟩ := exists_cons_of_mem_publicFiles hway
      have hne : first ≠ name := fun heq => hfresh (heq ▸ hin)
      refine ⟨⟨content, ?_⟩, hnames⟩
      rw [find?] at hfind ⊢
      rw [child?_ofNode, if_neg hne]
      exact hfind

theorem not_isPrivate_of_mem_publicFiles (h : way ∈ publicFiles f) :
    ∀ name ∈ way, isPrivate name = false := by
  induction f using entries_induction generalizing way with
  | empty => cases h
  | entry first node others inner ih =>
    rcases mem_publicFiles_ofNode.1 h with h | h
    · cases node with
      | file content =>
        obtain ⟨hfirst, rfl⟩ := mem_publicUnder_file.1 h
        exact List.forall_mem_singleton.2 hfirst
      | folder inside =>
        obtain ⟨hfirst, rest, hrest, rfl⟩ := mem_publicUnder_folder.1 h
        exact List.forall_mem_cons.2 ⟨hfirst, inner inside rfl hrest⟩
    · exact ih h

end Folder

/-! ### The path of a found file -/

namespace Path

variable {base name : String} {way : List String}

theorem toList_join (hname : IsName name) (base : String) :
    (join base name).toList =
      if base = "" ∨ base.toList.getLast? = some '/' then base.toList ++ name.toList
      else base.toList ++ '/' :: name.toList := by
  have hrelative : ¬ isAbsolute name = true := fun habs => by
    obtain ⟨rest, hrest⟩ := isAbsolute_iff.1 habs
    exact hname.2.2.2 (hrest ▸ List.mem_cons_self)
  rw [join, if_neg hrelative]
  split
  · exact String.toList_append
  · rw [String.toList_append, String.toList_append, List.append_assoc]
    rfl

theorem join_ne_empty (hname : IsName name) (base : String) : join base name ≠ "" := by
  intro h
  have hlist := congrArg String.toList h
  rw [toList_join hname] at hlist
  have hne : name.toList ≠ [] := fun hnil => hname.1 (String.toList_eq_nil_iff.1 hnil)
  split at hlist
  · exact hne (List.append_eq_nil_iff.1 hlist).2
  · exact List.cons_ne_nil _ _ (List.append_eq_nil_iff.1 hlist).2

theorem getLast?_join (hname : IsName name) (base : String) :
    (join base name).toList.getLast? ≠ some '/' := by
  have hne : name.toList ≠ [] := fun hnil => hname.1 (String.toList_eq_nil_iff.1 hnil)
  have hlast : (join base name).toList.getLast? = name.toList.getLast? := by
    rw [toList_join hname]
    split
    · rw [List.getLast?_append_of_ne_nil _ hne]
    · rw [List.getLast?_append_of_ne_nil _ (List.cons_ne_nil _ _), List.getLast?_cons_of_ne_nil hne]
  rw [hlast]
  exact fun h => hname.2.2.2 (List.mem_of_getLast? h)

theorem splitOn_name (hname : IsName name) : name.toList.splitOn '/' = [name.toList] :=
  List.splitOn_eq_singleton hname.2.2.2

theorem splitOn_join_of_ne (hbase : base ≠ "") (hlast : base.toList.getLast? ≠ some '/')
    (hname : IsName name) :
    (join base name).toList.splitOn '/' = base.toList.splitOn '/' ++ [name.toList] := by
  rw [toList_join hname, if_neg (not_or.2 ⟨hbase, hlast⟩), List.splitOn_append_cons_self,
    splitOn_name hname]

theorem splitOn_foldl_join_of_ne (hbase : base ≠ "") (hlast : base.toList.getLast? ≠ some '/')
    (hway : ∀ name ∈ way, IsName name) :
    (way.foldl join base).toList.splitOn '/' =
      base.toList.splitOn '/' ++ way.map String.toList := by
  induction way generalizing base with
  | nil => exact (List.append_nil _).symm
  | cons name rest ih =>
    obtain ⟨hname, hrest⟩ := List.forall_mem_cons.1 hway
    rw [List.foldl_cons, ih (join_ne_empty hname base) (getLast?_join hname base) hrest,
      splitOn_join_of_ne hbase hlast hname, List.append_assoc, List.map_cons,
      List.singleton_append]

/-- The segments of the path of a found file are those of the folder and the names of its way. A
slash at the end of the folder does not count. -/
theorem splitOn_foldl_join (hbase : base ≠ "") (hway : ∀ name ∈ way, IsName name) :
    ∃ segments, (way.foldl join base).toList.splitOn '/' = segments ++ way.map String.toList ∧
      (base.toList.splitOn '/' = segments ∨ base.toList.splitOn '/' = segments ++ [[]]) := by
  cases way with
  | nil => exact ⟨_, (List.append_nil _).symm, Or.inl rfl⟩
  | cons name rest =>
    by_cases hlast : base.toList.getLast? = some '/'
    · obtain ⟨hname, hrest⟩ := List.forall_mem_cons.1 hway
      obtain ⟨front, hfront⟩ := List.getLast?_eq_some_iff.1 hlast
      refine ⟨front.splitOn '/', ?_, Or.inr ?_⟩
      · rw [List.foldl_cons, splitOn_foldl_join_of_ne (join_ne_empty hname base)
          (getLast?_join hname base) hrest, toList_join hname, if_pos (Or.inr hlast), hfront,
          List.append_assoc, List.singleton_append, List.splitOn_append_cons_self,
          splitOn_name hname, List.append_assoc, List.map_cons, List.singleton_append]
      · rw [hfront, List.splitOn_append_cons_self]
        rfl
    · exact ⟨_, splitOn_foldl_join_of_ne hbase hlast hway, Or.inl rfl⟩

theorem isAbsolute_join_iff (hbase : base ≠ "") (hname : IsName name) :
    isAbsolute (join base name) = isAbsolute base := by
  have hne : base.toList ≠ [] := fun hnil => hbase (String.toList_eq_nil_iff.1 hnil)
  rw [isAbsolute, isAbsolute, toList_join hname]
  split <;> rw [List.head?_append_of_ne_nil _ hne]

theorem isAbsolute_foldl_join_iff (hbase : base ≠ "") (hway : ∀ name ∈ way, IsName name) :
    isAbsolute (way.foldl join base) = isAbsolute base := by
  induction way generalizing base with
  | nil => rfl
  | cons name rest ih =>
    obtain ⟨hname, hrest⟩ := List.forall_mem_cons.1 hway
    rw [List.foldl_cons, ih (join_ne_empty hname base) hrest, isAbsolute_join_iff hbase hname]

end Path

namespace Disk

variable {root : Folder} {w v : List String} {base : String} {node : Node} {d d' : Disk} {p : Place}

theorem follow_of_trailing {segments : List (List Char)}
    (h : (segments ++ [[]]).foldlM (step root) (placeAt root w) = .ok p) :
    segments.foldlM (step root) (placeAt root w) = .ok p := by
  rw [List.foldlM_append] at h
  obtain ⟨q, hq, hlast⟩ := bind_eq_ok.1 h
  obtain ⟨p', hp', hpure⟩ := bind_eq_ok.1 hlast
  obtain rfl := Except.ok.inj hpure
  have hplace := (follow_keeps (fun _ inside h => ⟨inside, h⟩) hq).1
  rw [hplace] at hp'
  obtain ⟨inside, hinside⟩ := exists_folder_of_step hp'
  rw [step_placeAt hinside, if_pos (Or.inl rfl)] at hp'
  rw [hq, hplace]
  exact hp'

/-- Names lead down to what stands at the end of their way, if none of them is too long. -/
theorem follow_names (hv : ∀ name ∈ v, IsName name) (hfind : root.find? (w ++ v) = some node) :
    (v.map String.toList).foldlM (step root) (placeAt root w) =
      if ∀ name ∈ v, name.utf8ByteSize ≤ maxName then .ok (placeAt root (w ++ v))
      else .error .nameTooLong := by
  induction v generalizing w with
  | nil => rw [List.append_nil, if_pos fun _ h => absurd h List.not_mem_nil]; rfl
  | cons name rest ih =>
    obtain ⟨⟨hempty, hdot, hdots, -⟩, hrest⟩ := List.forall_mem_cons.1 hv
    obtain ⟨inside, hinside⟩ :=
      Folder.exists_folder_of_find?_append (List.cons_ne_nil name rest) hfind
    have hskip : ¬ (name.toList = [] ∨ name.toList = ['.']) := by
      rintro (h | h)
      · exact hempty (String.toList_eq_nil_iff.1 h)
      · exact hdot (String.toList_inj.1 h)
    have hup : ¬ name.toList = ['.', '.'] := fun h => hdots (String.toList_inj.1 h)
    rw [List.map_cons, List.foldlM_cons, step_placeAt hinside, if_neg hskip, if_neg hup,
      String.ofList_toList]
    by_cases hlong : maxName < name.utf8ByteSize
    · rw [if_pos hlong, if_neg fun h => Nat.not_le.2 hlong (h name List.mem_cons_self)]
      rfl
    · have happend : w ++ name :: rest = (w ++ [name]) ++ rest := by simp
      rw [if_neg hlong]
      rw [happend] at hfind ⊢
      refine (ih hrest hfind).trans ?_
      simp only [List.forall_mem_cons, Nat.not_lt.1 hlong, true_and]

theorem place_found (hp : d.place base = .ok p) (hv : ∀ name ∈ v, IsName name)
    (hfind : d.root.find? (p.way ++ v) = some node) :
    d.place (v.foldl Path.join base) = checkPath (v.foldl Path.join base) >>= fun _ =>
      if ∀ name ∈ v, name.utf8ByteSize ≤ maxName then .ok (placeAt d.root (p.way ++ v))
      else .error .nameTooLong := by
  obtain ⟨hcheck, hfollow⟩ := place_eq_ok.1 hp
  have hbase : base ≠ "" := by
    rintro rfl
    cases hcheck
  obtain ⟨segments, hsplit, hsegments⟩ := Path.splitOn_foldl_join hbase hv
  have horigin : d.origin (v.foldl Path.join base) = d.origin base := by
    rw [origin_eq, origin_eq, Path.isAbsolute_foldl_join_iff hbase hv]
  have hbegin : segments.foldlM (step d.root) (d.origin base) = .ok p := by
    rw [origin_eq] at hfollow ⊢
    rcases hsegments with h | h
    · rw [h] at hfollow
      exact hfollow
    · rw [h] at hfollow
      exact follow_of_trailing hfollow
  have hend : p = placeAt d.root p.way := by
    rw [origin_eq] at hbegin
    exact (follow_keeps (fun _ inside h => ⟨inside, h⟩) hbegin).1
  unfold place
  rw [hsplit, horigin, List.foldlM_append, hbegin]
  refine congrArg (checkPath _ >>= ·) (funext fun _ => ?_)
  change (v.map String.toList).foldlM (step d.root) p = _
  rw [hend]
  exact follow_names hv hfind

theorem Grows.read_found {New : List String → Prop} (h : Grows New d d')
    (hp : d.place base = .ok p) (hv : ∀ name ∈ v, IsName name) {content : Content}
    (hfind : d.root.find? (p.way ++ v) = some (.file content)) (hnew : ¬ New (p.way ++ v)) :
    d'.read (v.foldl Path.join base) = d.read (v.foldl Path.join base) := by
  obtain ⟨content', hfind', hsame⟩ := h.root.file hfind
  rw [hsame hnew] at hfind'
  have hp' : d'.place base = .ok (placeAt d'.root p.way) := (h.place hp).2
  rw [read, read, node, node, place_found hp hv hfind, place_found hp' hv hfind']
  by_cases hshort : ∀ name ∈ v, name.utf8ByteSize ≤ maxName
  · simp only [if_pos hshort, placeAt, hfind, hfind']
  · simp only [if_neg hshort]

end Disk

namespace Discovery

variable {d d' : Disk} {root : String} {found : List Found} {New : List String → Prop}

/-- A file at a way is one that a search from a root finds: it stands at the root or below it, no
name on the way down to it is private, and its format is known. -/
def IsFound (d : Disk) (root : String) (way : List String) : Prop :=
  ∃ p v, d.place root = .ok p ∧ way = p.way ++ v ∧
    (∃ content, d.root.find? way = some (.file content)) ∧
    (∀ name ∈ v, isPrivate name = false) ∧
    (Format.ofPath? (v.foldl Path.join root)).isSome = true

theorem discover_eq_ok : discover d root = .ok found ↔
    ∃ p, d.place root = .ok p ∧
      ((∃ content, d.root.find? p.way = some (.file content) ∧
          found = (foundAt root []).toList) ∨
        ∃ inside, d.root.find? p.way = some (.folder inside) ∧
          found = ((publicFiles inside).filterMap (foundAt root)).mergeSort Found.le) := by
  unfold discover Disk.node
  rcases hp : d.place root with fault | p
  · exact iff_of_false nofun fun ⟨_, h, _⟩ => nomatch h
  · have hnode := Disk.node_of_place hp
    rcases hn : p.node with _ | content | inside
    · rw [hn] at hnode
      refine iff_of_false ?_ ?_
      · simp [bind, Except.bind, hn, throw, throwThe, MonadExceptOf.throw]
      · rintro ⟨_, hq, ⟨_, h, -⟩ | ⟨_, h, -⟩⟩
        all_goals
          obtain rfl := Except.ok.inj hq
          exact absurd (hnode.trans h) nofun
    · rw [hn] at hnode
      simp [bind, Except.bind, hn, pure, Except.pure, ← hnode, eq_comm]
    · rw [hn] at hnode
      simp [bind, Except.bind, hn, pure, Except.pure, ← hnode, eq_comm]

theorem foundAt_eq_some {way : List String} {f : Found} (h : foundAt root way = some f) :
    (Format.ofPath? (way.foldl Path.join root)).isSome = true ∧
      f.path = way.foldl Path.join root := by
  obtain ⟨hformat, rfl⟩ := Option.ite_some_none_eq_some.1 h
  exact ⟨hformat, rfl⟩

/-- The search finds the same files with the same documents when the tree has grown by files that
it does not find. -/
theorem discover_again (hnamed : d.root.IsWellNamed) (h : Disk.Grows New d d')
    (hfile : ∀ way, New way → ∃ content, d'.root.find? way = some (.file content))
    (hnew : ∀ way, IsFound d' root way → ¬ New way) (hfound : discover d root = .ok found) :
    discover d' root = .ok found ∧
      ∀ f ∈ found, DocumentFile.read d' f.path = DocumentFile.read d f.path := by
  obtain ⟨p, hp, hcases⟩ := discover_eq_ok.1 hfound
  have hp' := (h.place hp).2
  have hnone : ∀ v, New (p.way ++ v) → (∀ name ∈ v, isPrivate name = false) →
      foundAt root v = none := by
    intro v hv hpublic
    cases hat : foundAt root v with
    | none => rfl
    | some f =>
      exact absurd hv (hnew _ ⟨_, v, hp', rfl, hfile _ hv, hpublic, (foundAt_eq_some hat).1⟩)
  -- what is found stands where the tree has not changed
  have hread : ∀ v f, (∀ name ∈ v, IsName name) → (∀ name ∈ v, isPrivate name = false) →
      (∃ content, d.root.find? (p.way ++ v) = some (.file content)) → foundAt root v = some f →
      DocumentFile.read d' f.path = DocumentFile.read d f.path := by
    rintro v f hnames hpublic ⟨content, hfind⟩ hat
    have hold : ¬ New (p.way ++ v) := fun hv =>
      absurd ((hnone v hv hpublic).symm.trans hat) nofun
    rw [DocumentFile.read, (foundAt_eq_some hat).2, h.read_found hp hnames hfind hold,
      DocumentFile.read]
  rcases hcases with ⟨content, hcontent, rfl⟩ | ⟨inside, hinside, rfl⟩
  · obtain ⟨content', hcontent', -⟩ := h.root.file hcontent
    refine ⟨discover_eq_ok.2 ⟨_, hp', Or.inl ⟨content', hcontent', rfl⟩⟩, fun f hf => ?_⟩
    apply hread [] f (fun _ hm => absurd hm List.not_mem_nil)
      (fun _ hm => absurd hm List.not_mem_nil)
    · exact ⟨content, by rw [List.append_nil, hcontent]⟩
    · exact Option.mem_toList.1 hf
  · obtain ⟨inside', hinside', hsame⟩ := h.root.folder hinside
    refine ⟨discover_eq_ok.2 ⟨_, hp', Or.inr ⟨inside', hinside', ?_⟩⟩, fun f hf => ?_⟩
    · rw [hsame (foundAt root) hnone]
    · obtain ⟨v, hv, hat⟩ := List.mem_filterMap.1 (List.mem_mergeSort.1 hf)
      obtain ⟨⟨content, hcontent⟩, hnames⟩ := (hnamed.of_find? hinside).of_mem_publicFiles hv
      apply hread v f hnames (Folder.not_isPrivate_of_mem_publicFiles hv)
      · exact ⟨content, by rw [Folder.find?_append hinside, hcontent]⟩
      · exact hat

end Discovery

end SectionCompiler
