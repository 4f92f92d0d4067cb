import SectionCompiler.Proofs.Finding

/-! Relative paths of found files. The names of a way, joined to a folder one after another, make
the folder joined with the relative path of the way; different ways have different paths, and the
last name of the way decides on the format. -/

namespace SectionCompiler

namespace Path

variable {base name path : String} {way : List String} {front : List Char}

def ofWay (way : List String) : String := String.intercalate "/" way

theorem toList_ofWay (way : List String) :
    (ofWay way).toList = ['/'].intercalate (way.map String.toList) := by
  rw [ofWay, String.toList_intercalate]
  rfl

theorem ofWay_cons_cons (first second : String) (rest : List String) :
    ofWay (first :: second :: rest) = first ++ ("/" ++ ofWay (second :: rest)) := by
  refine String.toList_inj.1 ?_
  simp only [toList_ofWay, String.toList_append, List.map_cons, List.intercalate_cons_cons,
    List.append_assoc]
  rfl

theorem not_isAbsolute_append (hname : IsName name) (more : String) :
    ¬ isAbsolute (name ++ more) = true := by
  intro h
  obtain ⟨rest, hrest⟩ := isAbsolute_iff.1 h
  rw [String.toList_append] at hrest
  cases hcs : name.toList with
  | nil => exact hname.1 (String.toList_eq_nil_iff.1 hcs)
  | cons c cs =>
    rw [hcs, List.cons_append] at hrest
    exact hname.2.2.2 (hcs ▸ (List.cons.inj hrest).1 ▸ List.mem_cons_self)

theorem not_isAbsolute_ofWay (hway : ∀ name ∈ way, IsName name) :
    ¬ isAbsolute (ofWay way) = true := by
  cases way with
  | nil => exact (by decide : ¬ isAbsolute "" = true)
  | cons first rest =>
    have hfirst := hway first List.mem_cons_self
    cases rest with
    | nil => simpa [ofWay] using not_isAbsolute_append hfirst ""
    | cons second rest =>
      rw [ofWay_cons_cons]
      exact not_isAbsolute_append hfirst _

/-- Joining the names of a way one after another is joining its relative path. -/
theorem foldl_join_eq (hway : ∀ name ∈ way, IsName name) (hne : way ≠ []) (base : String) :
    way.foldl join base = join base (ofWay way) := by
  induction way generalizing base with
  | nil => exact absurd rfl hne
  | cons first rest ih =>
    obtain ⟨hfirst, hrest⟩ := List.forall_mem_cons.1 hway
    cases rest with
    | nil => simp [ofWay]
    | cons second rest =>
      have hrelative := not_isAbsolute_append hfirst ("/" ++ ofWay (second :: rest))
      have hfirst' : ¬ isAbsolute first = true := by simpa using not_isAbsolute_append hfirst ""
      rw [List.foldl_cons, ih hrest (List.cons_ne_nil _ _), join,
        if_neg (not_isAbsolute_ofWay hrest),
        if_neg (not_or.2 ⟨join_ne_empty hfirst base, getLast?_join hfirst base⟩), ofWay_cons_cons,
        join, if_neg hfirst', join, if_neg hrelative]
      split <;> simp only [String.append_assoc]

theorem splitOn_ofWay (hway : ∀ name ∈ way, IsName name) (hne : way ≠ []) :
    (ofWay way).toList.splitOn '/' = way.map String.toList := by
  rw [toList_ofWay]
  refine List.splitOn_intercalate '/' (fun segment hm hslash => ?_) (by simpa using hne)
  obtain ⟨name, hname, rfl⟩ := List.mem_map.1 hm
  exact (hway name hname).2.2.2 hslash

theorem ofWay_inj {v w : List String} (hv : ∀ name ∈ v, IsName name)
    (hw : ∀ name ∈ w, IsName name) (hv' : v ≠ []) (hw' : w ≠ []) (h : ofWay v = ofWay w) :
    v = w := by
  have hmap : v.map String.toList = w.map String.toList := by
    rw [← splitOn_ofWay hv hv', ← splitOn_ofWay hw hw', h]
  exact List.map_injective_iff.2 (fun _ _ => String.toList_injective) hmap

theorem join_inj {p q : String} (hp : ¬ isAbsolute p = true) (hq : ¬ isAbsolute q = true)
    (h : join base p = join base q) : p = q := by
  rw [join, join, if_neg hp, if_neg hq] at h
  refine String.toList_inj.1 ?_
  split at h <;> simpa using congrArg String.toList h

/-! ### The last name of a path -/

/-- What is left after the front of a path ends in a name when the path does. -/
theorem exists_splitFront_snd (hname : IsName name)
    (hfront : front = [] ∨ front.getLast? = some '/') :
    ∃ before, (splitFront (front ++ name.toList)).2 = before ++ name.toList ∧
      (before = [] ∨ before.getLast? = some '/') := by
  obtain ⟨hempty, hdot, -, hslash⟩ := hname
  have hends : ∀ c rest, front = c :: rest → rest = [] ∧ c = '/' ∨ rest.getLast? = some '/' := by
    rintro c rest rfl
    have hlast := hfront.resolve_left (List.cons_ne_nil c rest)
    cases rest with
    | nil => exact Or.inl ⟨rfl, Option.some.inj hlast⟩
    | cons d rest => exact Or.inr (List.getLast?_cons_cons ▸ hlast)
  unfold splitFront
  split
  · next rest heq =>
    cases front with
    | nil =>
      rw [List.nil_append] at heq
      exact absurd (heq ▸ List.mem_cons_self) hslash
    | cons c front =>
      obtain ⟨-, rfl⟩ := List.cons.inj heq
      exact ⟨front, rfl, (hends c front rfl).imp (·.1) id⟩
  · next heq =>
    cases front with
    | nil =>
      rw [List.nil_append] at heq
      exact absurd (String.toList_inj.1 heq) hdot
    | cons c front =>
      have hnil := (List.append_eq_nil_iff.1 (List.cons.inj heq).2).2
      exact absurd (String.toList_eq_nil_iff.1 hnil) hempty
  · next rest heq =>
    cases front with
    | nil =>
      rw [List.nil_append] at heq
      exact absurd (heq ▸ List.mem_cons_of_mem _ List.mem_cons_self) hslash
    | cons c front =>
      obtain ⟨rfl, hrest⟩ := List.cons.inj heq
      refine ⟨front, hrest.symm, Or.inr ?_⟩
      exact (hends _ front rfl).resolve_left fun h => absurd h.2 (by decide)
  · exact ⟨front, rfl, hfront⟩

theorem componentOf?_name (hname : IsName name) :
    componentOf? name.toList = some (.name name) := by
  obtain ⟨hempty, hdot, hdots, -⟩ := hname
  have hskip : ¬ (name.toList = [] ∨ name.toList = ['.']) := by
    rintro (h | h)
    · exact hempty (String.toList_eq_nil_iff.1 h)
    · exact hdot (String.toList_inj.1 h)
  have hup : ¬ name.toList = ['.', '.'] := fun h => hdots (String.toList_inj.1 h)
  rw [componentOf?, if_neg hskip, if_neg hup, String.ofList_toList]

theorem fileName?_eq (hname : IsName name) (hpath : path.toList = front ++ name.toList)
    (hfront : front = [] ∨ front.getLast? = some '/') : fileName? path = some name := by
  obtain ⟨before, hbody, hbefore⟩ := exists_splitFront_snd hname hfront
  have hsplit : ∃ segments, (before ++ name.toList).splitOn '/' = segments ++ [name.toList] := by
    rcases hbefore with rfl | hlast
    · exact ⟨[], splitOn_name hname⟩
    · obtain ⟨above, rfl⟩ := List.getLast?_eq_some_iff.1 hlast
      refine ⟨above.splitOn '/', ?_⟩
      rw [List.append_assoc, List.singleton_append, List.splitOn_append_cons_self,
        splitOn_name hname]
  obtain ⟨segments, hsegments⟩ := hsplit
  have hlast : (components path).getLast? = some (.name name) := by
    simp only [components, hpath, hbody, hsegments, List.filterMap_append]
    rw [List.filterMap_cons_some (componentOf?_name hname), List.filterMap_nil,
      ← List.append_assoc, List.getLast?_concat]
  rw [fileName?, hlast]

theorem fileName?_join (hname : IsName name) (base : String) :
    fileName? (join base name) = some name := by
  have hlist := toList_join hname base
  split at hlist
  · next h =>
    refine fileName?_eq hname hlist (h.imp (fun h => ?_) id)
    rw [h]
    rfl
  · exact fileName?_eq hname (hlist.trans (List.append_cons _ _ _)) (Or.inr List.getLast?_concat)

/-- The extension of a file is what follows its last dot, unless nothing stands before the dot. -/
theorem extension?_eq_some_iff {file ending : String} (hfile : fileName? path = some file) :
    extension? path = some ending ↔
      ∃ stem, stem ≠ [] ∧ file.toList = stem ++ '.' :: ending.toList ∧ '.' ∉ ending.toList := by
  rw [extension?, hfile, Option.bind_eq_bind, Option.bind_some]
  constructor
  · intro h
    split at h
    · next first second rest hdrop =>
      obtain rfl := Option.some.inj h
      rw [String.toList_ofList]
      have hfirst : first = '.' := by
        have hhead := List.head?_dropWhile_not (· ≠ '.') file.toList.reverse
        rw [hdrop] at hhead
        simpa using hhead
      have hwhole := List.takeWhile_append_dropWhile (p := (· ≠ '.')) (l := file.toList.reverse)
      refine ⟨(second :: rest).reverse, by simp, ?_, fun hdot => ?_⟩
      · rw [hdrop, hfirst] at hwhole
        have hback := congrArg List.reverse hwhole
        rw [List.reverse_reverse, List.reverse_append, List.reverse_cons, List.append_assoc,
          List.singleton_append] at hback
        exact hback.symm
      · simpa using List.mem_takeWhile_imp (List.mem_reverse.1 hdot)
    · cases h
  · rintro ⟨stem, hstem, hlist, hdot⟩
    have hreverse : file.toList.reverse = ending.toList.reverse ++ '.' :: stem.reverse := by
      rw [hlist]
      simp
    have hkeep : ∀ c ∈ ending.toList.reverse, decide (c ≠ '.') = true := by
      intro c hc
      refine decide_eq_true fun hce => hdot ?_
      exact hce ▸ List.mem_reverse.1 hc
    obtain ⟨last, before, hbefore⟩ := List.exists_cons_of_ne_nil (List.reverse_ne_nil_iff.2 hstem)
    rw [hreverse, List.dropWhile_append_of_pos hkeep, List.takeWhile_append_of_pos hkeep, hbefore]
    simp

end Path

namespace Format

def endings : List String := ["ini", "yaml", "yml", "toml"]

/-- The name of a file ends in a dot and a known ending, in any letter case of ASCII, and has
something before the dot. -/
def IsKnown (file : String) : Prop :=
  ∃ stem ending, stem ≠ [] ∧ file.toList = stem ++ '.' :: ending ∧
    String.ofList (ending.map Char.toLower) ∈ endings

theorem isSome_ofExtension?_iff (ending : String) :
    (ofExtension? ending).isSome = true ↔
      String.ofList (ending.toList.map Char.toLower) ∈ endings := by
  simp only [endings, ofExtension?, List.mem_cons, List.not_mem_nil, or_false]
  split
  · next h => simp [h]
  · next hini =>
    split
    · next h => exact iff_of_true rfl (Or.inr (h.elim Or.inl fun h => Or.inr (Or.inl h)))
    · next hyaml =>
      obtain ⟨hyaml, hyml⟩ := not_or.1 hyaml
      split
      · next h => simp [h]
      · next htoml => simp [hini, hyaml, hyml, htoml]

theorem dot_notMem_of_mem_endings {ending : List Char}
    (h : String.ofList (ending.map Char.toLower) ∈ endings) : '.' ∉ ending := by
  intro hdot
  have hlower : '.' ∈ (String.ofList (ending.map Char.toLower)).toList := by
    rw [String.toList_ofList]
    exact List.mem_map.2 ⟨'.', hdot, rfl⟩
  have hnone : ∀ word ∈ endings, '.' ∉ word.toList := by decide
  exact hnone _ h hlower

theorem isSome_ofPath?_iff {path file : String} (hfile : Path.fileName? path = some file) :
    (ofPath? path).isSome = true ↔ IsKnown file := by
  constructor
  · intro h
    obtain ⟨format, hformat⟩ := Option.isSome_iff_exists.1 h
    obtain ⟨ending, hending, hknown⟩ := Option.bind_eq_some_iff.1 hformat
    obtain ⟨stem, hstem, hlist, -⟩ := (Path.extension?_eq_some_iff hfile).1 hending
    refine ⟨stem, ending.toList, hstem, hlist, ?_⟩
    exact (isSome_ofExtension?_iff ending).1 (Option.isSome_iff_exists.2 ⟨format, hknown⟩)
  · rintro ⟨stem, ending, hstem, hlist, hknown⟩
    have hext : Path.extension? path = some (String.ofList ending) := by
      refine (Path.extension?_eq_some_iff hfile).2 ⟨stem, hstem, ?_, ?_⟩
      · rw [String.toList_ofList, hlist]
      · rw [String.toList_ofList]
        exact dot_notMem_of_mem_endings hknown
    rw [ofPath?, hext]
    refine (isSome_ofExtension?_iff _).2 ?_
    rwa [String.toList_ofList]

end Format

end SectionCompiler
