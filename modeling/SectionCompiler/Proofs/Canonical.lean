import SectionCompiler.Proofs.Reference

/-! The normal form of a name against the walks that the name stands for. A walk goes from a place
through the segments of a name. The segments of the normal form walk as those of the name do, and
names that walk alike from every place, both from the root or both not, have one normal form. -/

namespace SectionCompiler.Name

/-! ### Walks -/

def isSeparator (c : Char) : Bool := c = '/' || c = '\\'

def IsName (segment : List Char) : Prop :=
  segment ≠ [] ∧ segment ≠ ['.'] ∧ segment ≠ ['.', '.']

instance (segment : List Char) : Decidable (IsName segment) := inferInstanceAs (Decidable (_ ∧ _))

/-- A folder, told by the names that lead to it from the root. -/
@[ext] structure Place where
  names : List (List Char)
  isName : ∀ segment ∈ names, IsName segment

namespace Place

def root : Place := ⟨[], by simp⟩

def down (p : Place) (name : List Char) (h : IsName name) : Place :=
  ⟨p.names ++ [name], by simpa [or_imp, forall_and] using ⟨p.isName, h⟩⟩

/-- The place above. From the root there is no way up. -/
def up (p : Place) : Place := ⟨p.names.dropLast, fun s hs => p.isName s (List.dropLast_subset _ hs)⟩

def enter (p : Place) (segment : List Char) : Place :=
  if h : IsName segment then p.down segment h
  else if segment = ['.', '.'] then p.up
  else p

end Place

def isRootedName (name : String) : Bool := name.toList.head?.any isSeparator

def walk (base : Place) (name : String) : Place :=
  (name.toList.splitOnP isSeparator).foldl Place.enter (if isRootedName name then .root else base)

/-! ### The segments of a name -/

theorem slashed_eq_slash_iff {c : Char} : slashed c = '/' ↔ isSeparator c = true := by
  unfold slashed isSeparator
  split
  · next h => simp [h]
  · next h => simp [h]

theorem slashed_of_not_isSeparator {c : Char} (h : isSeparator c = false) : slashed c = c := by
  have hne : c ≠ '\\' := by
    rintro rfl
    exact absurd h (by decide)
  rw [slashed, if_neg hne]

theorem splitOn_map_slashed (cs : List Char) :
    (cs.map slashed).splitOn '/' = cs.splitOnP isSeparator := by
  induction cs with
  | nil => rfl
  | cons c rest ih =>
    rw [List.map_cons, List.splitOn_cons_eq_if_modifyHead, ih,
      List.splitOnP_cons_eq_if_modifyHead]
    by_cases hc : isSeparator c
    · simp [hc, slashed_eq_slash_iff.2 hc]
    · have hne : slashed c ≠ '/' := fun h => hc (slashed_eq_slash_iff.1 h)
      rw [slashed_of_not_isSeparator (by simpa using hc)] at hne ⊢
      simp [hc, hne]

theorem isRooted_map_slashed (name : String) :
    isRooted (name.toList.map slashed) = isRootedName name := by
  unfold isRooted isRootedName
  cases name.toList with
  | nil => rfl
  | cons c rest => simp [slashed_eq_slash_iff]

theorem not_isSeparator_of_mem_splitOnP {cs segment : List Char} {c : Char}
    (h : segment ∈ cs.splitOnP isSeparator) (hc : c ∈ segment) : isSeparator c = false := by
  induction cs generalizing segment with
  | nil => simp_all
  | cons d rest ih =>
    rw [List.splitOnP_cons_eq_if_modifyHead] at h
    split at h
    · rcases List.mem_cons.1 h with rfl | h
      · exact absurd hc List.not_mem_nil
      · exact ih h hc
    · next hd =>
      cases hrest : rest.splitOnP isSeparator with
      | nil => exact absurd hrest (List.splitOnP_ne_nil _ _)
      | cons first others =>
        rw [hrest, List.modifyHead_cons] at h
        rcases List.mem_cons.1 h with rfl | h
        · rcases List.mem_cons.1 hc with rfl | hc
          · simpa using hd
          · exact ih (hrest ▸ List.mem_cons_self) hc
        · exact ih (hrest ▸ List.mem_cons_of_mem _ h) hc

/-! ### Ways -/

/-- The place to which a way leads, its last segment first. -/
def lead (base : Place) (way : List (List Char)) : Place :=
  way.foldr (fun segment p => p.enter segment) base

/-- A way in normal form, its last segment first: names, and before them steps up, of which there is
none from the root. -/
structure IsNormal (rooted : Bool) (ups : Nat) (names way : List (List Char)) : Prop where
  way_eq : way = names ++ List.replicate ups ['.', '.']
  isName : ∀ segment ∈ names, IsName segment
  rooted_ups : rooted = true → ups = 0

theorem Place.names_enter {p : Place} {segment : List Char} (h : IsName segment) :
    (p.enter segment).names = p.names ++ [segment] := by
  rw [enter, dif_pos h, down]

theorem not_isName_up : ¬ IsName ['.', '.'] := fun h => h.2.2 rfl

theorem Place.names_enter_up (p : Place) : (p.enter ['.', '.']).names = p.names.dropLast := by
  rw [enter, dif_neg not_isName_up, if_pos rfl, up]

theorem Place.enter_of_stays {segment : List Char} (h : segment = [] ∨ segment = ['.'])
    (p : Place) : p.enter segment = p := by
  have hname : ¬ IsName segment := fun hn => h.elim hn.1 hn.2.1
  have hup : segment ≠ ['.', '.'] := by
    rintro rfl
    exact absurd h (by decide)
  rw [enter, dif_neg hname, if_neg hup]

/-- A step up undoes a step down. -/
theorem Place.enter_enter_up {segment : List Char} (h : IsName segment) (p : Place) :
    (p.enter segment).enter ['.', '.'] = p := by
  apply Place.ext
  rw [names_enter_up, names_enter h, List.dropLast_concat]

/-- Following a segment keeps a way normal and goes where the segment leads. -/
theorem follow_spec {rooted : Bool} {base : Place} {ups : Nat} {names way : List (List Char)}
    (h : IsNormal rooted ups names way) (hbase : rooted = true → base = .root)
    (segment : List Char) :
    (∃ ups' names', IsNormal rooted ups' names' (follow rooted way segment)) ∧
      lead base (follow rooted way segment) = (lead base way).enter segment := by
  obtain ⟨rfl, hnames, hups⟩ := h
  unfold follow
  split
  · next hstays => exact ⟨⟨ups, names, rfl, hnames, hups⟩, (Place.enter_of_stays hstays _).symm⟩
  · next hstays =>
    obtain ⟨hne, hdot⟩ := not_or.1 hstays
    split
    · next hup =>
      subst hup
      cases names with
      | nil =>
        -- with no name left to take away, a step up is kept, but for one from the root
        cases ups with
        | zero =>
          cases rooted with
          | true =>
            refine ⟨⟨0, [], rfl, by simp, fun _ => rfl⟩, ?_⟩
            rw [hbase rfl]
            rfl
          | false => exact ⟨⟨1, [], rfl, by simp, by simp⟩, rfl⟩
        | succ ups =>
          refine ⟨⟨ups + 2, [], rfl, by simp, fun hr => ?_⟩, rfl⟩
          exact absurd (hups hr) (by simp)
      | cons last names =>
        obtain ⟨hlast, hnames⟩ := List.forall_mem_cons.1 hnames
        rw [List.cons_append]
        dsimp only
        rw [if_neg hlast.2.2]
        exact ⟨⟨ups, names, rfl, hnames, hups⟩, (Place.enter_enter_up hlast _).symm⟩
    · next hup =>
      have hname : IsName segment := ⟨hne, hdot, hup⟩
      exact ⟨⟨ups, segment :: names, rfl, List.forall_mem_cons.2 ⟨hname, hnames⟩, hups⟩, rfl⟩

theorem foldl_follow_spec {rooted : Bool} {base : Place} {ups : Nat} {names way : List (List Char)}
    (h : IsNormal rooted ups names way) (hbase : rooted = true → base = .root)
    (segments : List (List Char)) :
    (∃ ups' names', IsNormal rooted ups' names' (segments.foldl (follow rooted) way)) ∧
      lead base (segments.foldl (follow rooted) way) =
        segments.foldl Place.enter (lead base way) := by
  induction segments generalizing ups names way with
  | nil => exact ⟨⟨ups, names, h⟩, rfl⟩
  | cons segment rest ih =>
    obtain ⟨⟨ups', names', hnormal⟩, hlead⟩ := follow_spec h hbase segment
    rw [List.foldl_cons, List.foldl_cons, ← hlead]
    exact ih hnormal

def wayOf (name : String) : List (List Char) := (segments (name.toList.map slashed)).reverse

theorem wayOf_eq (name : String) :
    wayOf name = (name.toList.splitOnP isSeparator).foldl (follow (isRootedName name)) [] := by
  rw [wayOf, segments, List.reverse_reverse, isRooted_map_slashed, splitOn_map_slashed]

def start (rooted : Bool) (base : Place) : Place := if rooted then .root else base

theorem start_eq_root {rooted : Bool} (base : Place) (h : rooted = true) :
    start rooted base = .root := if_pos h

theorem isNormal_nil (rooted : Bool) : IsNormal rooted 0 [] [] := ⟨rfl, by simp, fun _ => rfl⟩

theorem exists_isNormal_wayOf (name : String) :
    ∃ ups names, IsNormal (isRootedName name) ups names (wayOf name) := by
  rw [wayOf_eq]
  exact (foldl_follow_spec (isNormal_nil _) (start_eq_root .root) _).1

/-- A walk goes where the segments of the normal form lead. -/
theorem walk_eq_lead (base : Place) (name : String) :
    walk base name = lead (start (isRootedName name) base) (wayOf name) := by
  rw [wayOf_eq, (foldl_follow_spec (isNormal_nil _) (start_eq_root base) _).2]
  rfl

theorem not_isSeparator_of_mem_wayOf {name : String} {segment : List Char}
    (h : segment ∈ wayOf name) {c : Char} (hc : c ∈ segment) : isSeparator c = false := by
  rw [wayOf_eq] at h
  rcases mem_foldl_follow h with h | h
  · exact absurd h List.not_mem_nil
  · exact not_isSeparator_of_mem_splitOnP h hc

theorem ne_nil_of_mem_wayOf {name : String} {segment : List Char} (h : segment ∈ wayOf name) :
    segment ≠ [] := by
  obtain ⟨ups, names, hnormal⟩ := exists_isNormal_wayOf name
  rw [hnormal.way_eq, List.mem_append] at h
  rcases h with h | h
  · exact (hnormal.isName segment h).1
  · rw [List.eq_of_mem_replicate h]
    simp

/-! ### Walking by the normal form -/

theorem splitOnP_intercalate {segments : List (List Char)} (hne : segments ≠ [])
    (h : ∀ segment ∈ segments, ∀ c ∈ segment, isSeparator c = false) :
    (['/'].intercalate segments).splitOnP isSeparator = segments := by
  induction segments with
  | nil => exact absurd rfl hne
  | cons segment rest ih =>
    obtain ⟨hsegment, hrest⟩ := List.forall_mem_cons.1 h
    cases rest with
    | nil =>
      rw [List.intercalate_singleton]
      exact List.splitOnP_eq_singleton hsegment
    | cons next rest =>
      rw [List.intercalate_cons_cons, List.append_assoc, List.singleton_append,
        List.splitOnP_append_cons _ _ (by decide), List.splitOnP_eq_singleton hsegment,
        ih (by simp) hrest, List.singleton_append]

theorem foldl_enter_intercalate (p : Place) {segments : List (List Char)}
    (h : ∀ segment ∈ segments, ∀ c ∈ segment, isSeparator c = false) :
    ((['/'].intercalate segments).splitOnP isSeparator).foldl Place.enter p =
      segments.foldl Place.enter p := by
  by_cases hne : segments = []
  · subst hne
    exact Place.enter_of_stays (Or.inl rfl) p
  · rw [splitOnP_intercalate hne h]

theorem head?_intercalate {mark : List Char} {segments : List (List Char)}
    (h : ∀ segment ∈ segments, segment ≠ []) :
    (mark.intercalate segments).head? = segments.head?.bind List.head? := by
  cases segments with
  | nil => rfl
  | cons segment rest =>
    obtain ⟨c, cs, rfl⟩ := List.exists_cons_of_ne_nil (h segment List.mem_cons_self)
    cases rest with
    | nil => simp
    | cons next rest => rw [List.intercalate_cons_cons]; rfl

def joined (name : String) : List Char := ['/'].intercalate (wayOf name).reverse

theorem toList_normalize (name : String) :
    (normalize name).toList =
      if isRootedName name then '/' :: joined name
      else if joined name = [] then ['.'] else joined name := by
  rw [normalize, String.toList_ofList, normalizeChars, isRooted_map_slashed, joined, wayOf,
    List.reverse_reverse]

theorem isSeparator_of_head?_joined {name : String} {c : Char} (h : (joined name).head? = some c) :
    isSeparator c = false := by
  rw [joined, head?_intercalate fun segment hm => ne_nil_of_mem_wayOf (List.mem_reverse.1 hm),
    Option.bind_eq_some_iff] at h
  obtain ⟨segment, hsegment, hc⟩ := h
  exact not_isSeparator_of_mem_wayOf (List.mem_reverse.1 (List.mem_of_head? hsegment))
    (List.mem_of_head? hc)

theorem isRootedName_normalize (name : String) :
    isRootedName (normalize name) = isRootedName name := by
  rw [isRootedName, toList_normalize]
  cases isRootedName name with
  | true => rfl
  | false =>
    rw [if_neg Bool.false_ne_true]
    split
    · rfl
    · cases hhead : (joined name).head? with
      | none => rfl
      | some c => simpa using isSeparator_of_head?_joined hhead

theorem foldl_enter_joined (p : Place) (name : String) :
    ((joined name).splitOnP isSeparator).foldl Place.enter p = lead p (wayOf name) := by
  rw [joined, foldl_enter_intercalate p fun segment hm c hc =>
    not_isSeparator_of_mem_wayOf (List.mem_reverse.1 hm) hc, List.foldl_reverse]
  rfl

theorem walk_normalize (base : Place) (name : String) :
    walk base (normalize name) = walk base name := by
  rw [walk_eq_lead base name, walk, isRootedName_normalize, toList_normalize, start]
  cases isRootedName name with
  | true =>
    rw [if_pos rfl, if_pos rfl, List.splitOnP_cons_eq_if_modifyHead, if_pos (by decide),
      List.foldl_cons, Place.enter_of_stays (Or.inl rfl), foldl_enter_joined]
  | false =>
    rw [if_neg Bool.false_ne_true, if_neg Bool.false_ne_true]
    split
    · next hempty =>
      rw [← foldl_enter_joined, hempty]
      rfl
    · exact foldl_enter_joined base name

/-! ### Telling normal forms apart -/

theorem IsNormal.names_lead {rooted : Bool} {ups : Nat} {names way : List (List Char)}
    (h : IsNormal rooted ups names way) {base : Place} {count : Nat} {x : List Char}
    (hbase : base.names = List.replicate count x) :
    (lead base way).names = List.replicate (count - ups) x ++ names.reverse := by
  obtain ⟨rfl, hnames, -⟩ := h
  induction names with
  | nil =>
    rw [List.nil_append, List.reverse_nil, List.append_nil]
    induction ups with
    | zero => exact hbase
    | succ ups ih =>
      have hlead : lead base (List.replicate (ups + 1) ['.', '.']) =
          (lead base (List.replicate ups ['.', '.'])).enter ['.', '.'] := rfl
      rw [hlead, Place.names_enter_up, ih, List.dropLast_replicate, Nat.sub_sub]
  | cons last names ih =>
    obtain ⟨hlast, hnames⟩ := List.forall_mem_cons.1 hnames
    have hlead : lead base (last :: names ++ List.replicate ups ['.', '.']) =
        (lead base (names ++ List.replicate ups ['.', '.'])).enter last := rfl
    rw [hlead, Place.names_enter hlast, ih hnames, List.reverse_cons, List.append_assoc]

theorem exists_isName_notMem (names : List (List Char)) : ∃ x, IsName x ∧ x ∉ names := by
  refine ⟨List.replicate (names.flatten.length + 3) 'a', ⟨?_, ?_, ?_⟩, fun hm => ?_⟩
  · simp [List.replicate_succ]
  · simp [List.replicate_succ]
  · simp [List.replicate_succ]
  · have hle := (List.sublist_flatten_of_mem hm).length_le
    rw [List.length_replicate] at hle
    omega

/-- From a place deep under fresh names a way shows how far it goes up. -/
theorem ups_le_of_lead_eq {ups ups' : Nat} {names names' way way' : List (List Char)}
    (h : IsNormal false ups names way) (h' : IsNormal false ups' names' way')
    (hlead : ∀ base, lead base way = lead base way') : ups' ≤ ups := by
  obtain ⟨x, hx, hfresh⟩ := exists_isName_notMem names'
  let base : Place := ⟨List.replicate ups' x, fun s hs => List.eq_of_mem_replicate hs ▸ hx⟩
  have hbase : base.names = List.replicate ups' x := rfl
  have hnames := congrArg Place.names (hlead base)
  rw [h.names_lead hbase, h'.names_lead hbase, Nat.sub_self, List.replicate_zero,
    List.nil_append] at hnames
  refine Nat.le_of_not_lt fun hlt => ?_
  have hmem : x ∈ List.replicate (ups' - ups) x ++ names.reverse :=
    List.mem_append_left _ (List.mem_replicate.2 ⟨by omega, rfl⟩)
  rw [hnames, List.mem_reverse] at hmem
  exact hfresh hmem

/-- Ways in normal form are equal when they lead to the same places. -/
theorem way_eq_of_lead_eq {rooted : Bool} {ups ups' : Nat}
    {names names' way way' : List (List Char)}
    (h : IsNormal rooted ups names way) (h' : IsNormal rooted ups' names' way')
    (hlead : ∀ base, lead (start rooted base) way = lead (start rooted base) way') :
    way = way' := by
  have hups : ups = ups' := by
    cases rooted with
    | true => rw [h.rooted_ups rfl, h'.rooted_ups rfl]
    | false =>
      apply Nat.le_antisymm
      · exact ups_le_of_lead_eq h' h fun base => (hlead base).symm
      · exact ups_le_of_lead_eq h h' hlead
  have hroot : (start rooted .root).names = List.replicate 0 [] := by cases rooted <;> rfl
  have hnames := congrArg Place.names (hlead .root)
  rw [h.names_lead hroot, h'.names_lead hroot, hups, List.append_cancel_left_eq,
    List.reverse_inj] at hnames
  rw [h.way_eq, h'.way_eq, hups, hnames]

theorem normalize_eq_of_walk_eq {s t : String} (hrooted : isRootedName s = isRootedName t)
    (hwalk : ∀ base, walk base s = walk base t) : normalize s = normalize t := by
  obtain ⟨ups, names, hs⟩ := exists_isNormal_wayOf s
  obtain ⟨ups', names', ht⟩ := exists_isNormal_wayOf t
  have hway : wayOf s = wayOf t := by
    rw [hrooted] at hs
    refine way_eq_of_lead_eq hs ht fun base => ?_
    rw [← walk_eq_lead base t, ← hwalk base, walk_eq_lead base s, hrooted]
  rw [← String.toList_inj, toList_normalize, toList_normalize, joined, joined, hrooted, hway]

/-- The normal form tells where a name leads and nothing else: two names have one normal form just
when both are rooted or both are not, and they lead to the same place from every place. The normal
form is such a name itself, so it is its own normal form. -/
theorem normalize_isCanonical (s t : String) :
    (normalize s = normalize t ↔
      isRootedName s = isRootedName t ∧ ∀ base, walk base s = walk base t) ∧
    (∀ base, walk base (normalize s) = walk base s) ∧
    isRootedName (normalize s) = isRootedName s ∧
    normalize (normalize s) = normalize s := by
  refine ⟨⟨fun h => ⟨?_, fun base => ?_⟩, fun h => normalize_eq_of_walk_eq h.1 h.2⟩,
    fun base => walk_normalize base s, isRootedName_normalize s, ?_⟩
  · rw [← isRootedName_normalize s, h, isRootedName_normalize t]
  · rw [← walk_normalize base s, h, walk_normalize base t]
  · exact normalize_eq_of_walk_eq (isRootedName_normalize s) fun base => walk_normalize base s

end SectionCompiler.Name
