import SectionCompiler.Proofs.Tables

/-! Naming a document in a registry table. A source that is a pattern is never taken for a document
name, so a document whose name is a pattern is named by it only when the pattern matches itself.
Without brackets every pattern does, for a question mark and a star match themselves. -/

namespace SectionCompiler

namespace Glob

variable {position : Nat} {before : Option Char} {cs : List Char} {ts : List Token}

/-- The name is no pattern, or it is a pattern that matches it. -/
def NamesItself (name : String) : Prop :=
  isPattern name = false ∨ ∃ g, parse name = .ok g ∧ g.matchesName name = true

theorem sameLetter_self (c : Char) : sameLetter c c = true := decide_eq_true rfl

theorem afterRun_cons {p : List Char → Bool} {c : Char} (hc : c ≠ '/') (h : p cs = true) :
    afterRun p (c :: cs) = true := by
  have hcs : afterRun p cs = true := by
    cases cs with
    | nil => exact h
    | cons d rest => simp [afterRun, h]
  simp [afterRun, hc, hcs]

/-- A pattern without brackets matches itself. -/
theorem matchTokens_of_tokensFrom (h : tokensFrom position before cs = .ok ts)
    (hopen : '[' ∉ cs) : matchTokens ts cs = true := by
  fun_induction tokensFrom position before cs generalizing ts with
  | case1 =>
    obtain rfl := Except.ok.inj h
    rfl
  | case2 position before rest ih =>
    obtain ⟨ts, hts, rfl⟩ := map_eq_ok.1 h
    simp [matchTokens, ih hts (List.not_mem_of_not_mem_cons hopen)]
  | case4 =>
    -- two stars at the end stand for any segments, and so for two stars
    obtain rfl := Except.ok.inj h
    simp [matchTokens]
  | case5 position before hbefore rest hstar ih =>
    -- the two stars are the segments before the slash
    obtain ⟨ts, hts, rfl⟩ := map_eq_ok.1 h
    have hrest : '[' ∉ rest := fun hm => hopen (by simp [hm])
    simp [matchTokens, afterSlash, ih hts hrest]
  | case8 position before rest hthree htwo ih =>
    obtain ⟨ts, hts, rfl⟩ := map_eq_ok.1 h
    exact afterRun_cons (by decide) (ih hts (List.not_mem_of_not_mem_cons hopen))
  | case13 position before c rest _ _ _ _ _ _ ih =>
    obtain ⟨ts, hts, rfl⟩ := map_eq_ok.1 h
    simp [matchTokens, sameLetter_self, ih hts (List.not_mem_of_not_mem_cons hopen)]
  | case9 | case11 => exact absurd List.mem_cons_self hopen
  | case3 | case6 | case7 | case10 | case12 => cases h

/-- A text without brackets and without two stars in a row is a pattern. -/
theorem exists_tokensFrom (position : Nat) (before : Option Char) (hopen : '[' ∉ cs)
    (hstars : ¬ ['*', '*'] <:+: cs) : ∃ ts, tokensFrom position before cs = .ok ts := by
  have hrest {c : Char} {rest : List Char} (h : ¬ ['*', '*'] <:+: c :: rest) :
      ¬ ['*', '*'] <:+: rest := fun hin => h (hin.trans (List.suffix_cons c rest).isInfix)
  have htwo {rest : List Char} : ['*', '*'] <:+: '*' :: '*' :: rest :=
    (List.prefix_append ['*', '*'] rest).isInfix
  fun_induction tokensFrom position before cs with
  | case1 => exact ⟨_, rfl⟩
  | case2 _ _ _ ih | case8 _ _ _ _ _ ih | case13 _ _ _ _ _ _ _ _ _ _ ih =>
    obtain ⟨ts, hts⟩ := ih (List.not_mem_of_not_mem_cons hopen) (hrest hstars)
    exact ⟨_, map_eq_ok.2 ⟨ts, hts, rfl⟩⟩
  | case3 | case4 | case5 | case6 | case7 => exact absurd htwo hstars
  | case9 | case10 | case11 | case12 => exact absurd List.mem_cons_self hopen

theorem star_notMem_of_isPattern {name : String} (h : isPattern name = false) :
    '*' ∉ name.toList := fun hm => List.any_eq_false.1 h '*' hm rfl

variable {name : String}

theorem exists_parse (hopen : '[' ∉ name.toList) (hstars : ¬ ['*', '*'] <:+: name.toList) :
    ∃ g, parse name = .ok g := by
  obtain ⟨ts, hts⟩ := exists_tokensFrom 0 none hopen hstars
  exact ⟨⟨ts⟩, map_eq_ok.2 ⟨ts, hts, rfl⟩⟩

theorem namesItself_of_parse {g : Glob} (hopen : '[' ∉ name.toList) (h : parse name = .ok g) :
    NamesItself name := by
  obtain ⟨ts, hts, rfl⟩ := map_eq_ok.1 h
  exact Or.inr ⟨⟨ts⟩, h, matchTokens_of_tokensFrom hts hopen⟩

/-- A name without brackets names itself exactly when it can be read as a pattern. -/
theorem namesItself_iff_parse (hopen : '[' ∉ name.toList) :
    NamesItself name ↔ ∃ g, parse name = .ok g := by
  refine ⟨fun h => ?_, fun ⟨g, hg⟩ => namesItself_of_parse hopen hg⟩
  rcases h with hplain | ⟨g, hg, -⟩
  · refine exists_parse hopen fun hstars => star_notMem_of_isPattern hplain ?_
    exact hstars.subset List.mem_cons_self
  · exact ⟨g, hg⟩

end Glob

namespace Registry

variable {d : Disk} {library : Library} {name : String} {document : Document}

/-- A name contributes its document: no table fails for it, and in each table that is left the
headings of the document stand in their order among those that the name gives, between what the
sources before it give and what the sources after it give. -/
structure Contributes (d : Disk) (library : Library) (name : String) (document : Document) :
    Prop where
  succeeds : ∀ {tables fault}, build d library tables = .error fault → fault.pattern ≠ name
  included : ∀ {tables registry}, build d library tables = .ok registry →
    ∀ before t after, tables = before ++ t :: after → (∀ u ∈ after, u.target ≠ t.target) →
      ∀ sources sources', t.sources = sources ++ name :: sources' →
        ∃ front found back, sources.mapM (headings d library) = .ok front ∧
          document.keys <:+: found ∧ sources'.mapM (headings d library) = .ok back ∧
          registry.get? t.target =
            some ⟨numbered (t.start.getD 1) (front.flatten ++ found ++ back.flatten)⟩

theorem headings_eq_error {source : String} {fault : Fault}
    (h : headings d library source = .error fault) :
    fault.pattern = source ∧ Glob.isPattern source = true ∧ ∀ g, Glob.parse source ≠ .ok g := by
  rw [headings] at h
  split at h
  · next hpattern =>
    split at h
    · cases h
    · next cause hcause =>
      obtain rfl := Except.error.inj h
      exact ⟨rfl, hpattern, fun g hg => by cases hcause.symm.trans hg⟩
  · split at h
    · cases h
    · split at h <;> cases h

/-- A build fails for a source of one of its tables. -/
theorem exists_headings_of_build {tables : List RegistryTable} {fault : Fault}
    (h : build d library tables = .error fault) :
    ∃ t ∈ tables, ∃ source ∈ t.sources, headings d library source = .error fault := by
  rcases bind_eq_error.1 h with htables | ⟨sections, -, h⟩
  · obtain ⟨t, ht, hsection⟩ := exists_of_mapM_eq_error htables
    refine ⟨t, ht, ?_⟩
    rcases bind_eq_error.1 hsection with hsources | ⟨content, -, h⟩
    · rcases bind_eq_error.1 hsources with hsources | ⟨found, -, h⟩
      · exact exists_of_mapM_eq_error hsources
      · cases h
    · cases h
  · cases h

theorem get?_build_of_last {tables before after : List RegistryTable} {t : RegistryTable}
    {registry : Document} (h : build d library tables = .ok registry)
    (htables : tables = before ++ t :: after) (hlast : ∀ u ∈ after, u.target ≠ t.target) :
    ∃ content, tableSection d library t = .ok content ∧
      registry.get? t.target = some content := by
  obtain ⟨sections, rfl, hsections⟩ := exists_tableSections_of_build h
  rw [htables] at hsections
  obtain ⟨before', ⟨target, content⟩, after', rfl, ⟨htarget, hcontent⟩, hafter⟩ :=
    exists_split_of_forall₂ hsections
  obtain rfl : target = t.target := htarget
  refine ⟨content, hcontent, Keyed.get?_ofList_of_last ?_⟩
  rw [map_fst_of_forall₂ (hafter.imp fun u e he => he.1)]
  intro hmem
  obtain ⟨u, hu, hsame⟩ := List.mem_map.1 hmem
  exact hlast u hu hsame

theorem tableSection_around {t : RegistryTable} {sources sources' : List String}
    {content : Section} (h : tableSection d library t = .ok content)
    (hsources : t.sources = sources ++ name :: sources') :
    ∃ front found back, sources.mapM (headings d library) = .ok front ∧
      headings d library name = .ok found ∧ sources'.mapM (headings d library) = .ok back ∧
      content = ⟨numbered (t.start.getD 1) (front.flatten ++ found ++ back.flatten)⟩ := by
  obtain ⟨parts, hparts, hcontent⟩ := bind_eq_ok.1 h
  obtain rfl := pure_eq_ok.1 hcontent
  rw [hsources, List.mapM_append] at hparts
  obtain ⟨front, hfront, hparts⟩ := bind_eq_ok.1 hparts
  obtain ⟨rest, hrest, hparts⟩ := bind_eq_ok.1 hparts
  obtain rfl := pure_eq_ok.1 hparts
  rw [List.mapM_cons] at hrest
  obtain ⟨found, hfound, hrest⟩ := bind_eq_ok.1 hrest
  obtain ⟨back, hback, hrest⟩ := bind_eq_ok.1 hrest
  obtain rfl := pure_eq_ok.1 hrest
  refine ⟨front, found, back, hfront, hfound, hback, ?_⟩
  rw [List.flatten_append, List.flatten_cons, List.append_assoc]

theorem keys_infix_of_headings {found : List String} (hname : Glob.NamesItself name)
    (hdocument : library.get? name = some document)
    (h : headings d library name = .ok found) : document.keys <:+: found := by
  rw [headings] at h
  rcases hname with hplain | ⟨g, hg, hmatches⟩
  · rw [hplain, hdocument] at h
    exact Except.ok.inj h ▸ List.infix_refl _
  · split at h
    · rw [hg] at h
      obtain rfl := Except.ok.inj h
      have hmem : (name, document) ∈ library.entries.filter fun e => g.matchesName e.1 :=
        List.mem_filter.2 ⟨Catalog.get?_eq_some_iff.1 hdocument, hmatches⟩
      obtain ⟨front, back, hsplit⟩ := List.append_of_mem hmem
      rw [headingsOfGlob, hsplit, List.flatMap_append, List.flatMap_cons]
      exact ⟨_, _, List.append_assoc _ _ _⟩
    · rw [hdocument] at h
      exact Except.ok.inj h ▸ List.infix_refl _

theorem contributes_of_namesItself (hname : Glob.NamesItself name)
    (hdocument : library.get? name = some document) : Contributes d library name document := by
  refine ⟨fun {tables fault} h hfault => ?_, fun {tables registry} h before t after htables hlast
    sources sources' hsources => ?_⟩
  · obtain ⟨t, -, source, -, hsource⟩ := exists_headings_of_build h
    obtain ⟨hpattern, hwild, hnone⟩ := headings_eq_error hsource
    obtain rfl := hpattern.symm.trans hfault
    rcases hname with hplain | ⟨g, hg, -⟩
    · exact absurd (hplain.symm.trans hwild) nofun
    · exact hnone g hg
  · obtain ⟨content, hsection, hget⟩ := get?_build_of_last h htables hlast
    obtain ⟨front, found, back, hfront, hfound, hback, rfl⟩ := tableSection_around hsection hsources
    exact ⟨front, found, back, hfront, keys_infix_of_headings hname hdocument hfound, hback, hget⟩

/-! ### Names that do not name themselves -/

def lone (name : String) : Library :=
  ⟨[(name, Keyed.ofList [("A", ∅)])], List.pairwise_singleton _ _⟩

theorem get?_lone (name : String) : (lone name).get? name = some (Keyed.ofList [("A", ∅)]) :=
  List.lookup_cons_self

/-- A pattern that does not match the one name gives nothing. -/
theorem headings_lone {g : Glob} (hpattern : Glob.isPattern name = true)
    (hg : Glob.parse name = .ok g) (h : g.matchesName name = false) :
    headings d (lone name) name = .ok [] := by
  rw [headings, if_pos hpattern, hg]
  simp [headingsOfGlob, lone, h]

theorem build_of_headings {found : List String} (h : headings d library name = .ok found) :
    build d library [⟨"T", [name], none⟩] = .ok (Keyed.ofList [("T", ⟨numbered 1 found⟩)]) := by
  simp [build, tableSection, h, bind, Except.bind, pure, Except.pure]

theorem build_of_fault {fault : Fault} (h : headings d library name = .error fault) :
    build d library [⟨"T", [name], none⟩] = .error fault := by
  simp [build, tableSection, h, bind, Except.bind]

theorem not_contributes_of_fault {cause : Glob.Fault} (hpattern : Glob.isPattern name = true)
    (hg : Glob.parse name = .error cause) : ¬ Contributes d (lone name) name document := by
  intro h
  have hfault : headings d (lone name) name = .error ⟨name, cause⟩ := by
    rw [headings, if_pos hpattern, hg]
  exact h.succeeds (build_of_fault hfault) rfl

theorem not_contributes_of_mismatch {g : Glob} (hpattern : Glob.isPattern name = true)
    (hg : Glob.parse name = .ok g) (hmatches : g.matchesName name = false) :
    ¬ Contributes d (lone name) name (Keyed.ofList [("A", ∅)]) := by
  intro h
  have hbuild := build_of_headings (headings_lone (d := d) hpattern hg hmatches)
  obtain ⟨front, found, back, -, hkeys, -, hget⟩ :=
    h.included hbuild [] _ [] rfl (by simp) [] [] rfl
  have hnumbered : numbered 1 (front.flatten ++ found ++ back.flatten) = [] :=
    congrArg Section.entries (Option.some.inj hget).symm
  rw [numbered_eq_mapIdx, List.mapIdx_eq_nil_iff] at hnumbered
  have hfound : found = [] := by simp_all
  have hmem : "A" ∈ found := hkeys.subset List.mem_cons_self
  rw [hfound] at hmem
  exact absurd hmem List.not_mem_nil

theorem namesItself_of_contributes
    (h : ∀ d library document, library.get? name = some document →
      Contributes d library name document) : Glob.NamesItself name := by
  have hlone := h bare (lone name) _ (get?_lone name)
  cases hpattern : Glob.isPattern name with
  | false => exact Or.inl hpattern
  | true =>
    cases hg : Glob.parse name with
    | error cause => exact absurd hlone (not_contributes_of_fault hpattern hg)
    | ok g =>
      cases hmatches : g.matchesName name with
      | true => exact Or.inr ⟨g, hg, hmatches⟩
      | false => exact absurd hlone (not_contributes_of_mismatch hpattern hg hmatches)

/-- Naming a document contributes it, in all builds, exactly when its name is no pattern or is one
that matches it. A name without brackets does so when it can be read as a pattern, as it can
without two stars in a row. -/
theorem contributes_iff_namesItself (name : String) :
    ((∀ d library document, library.get? name = some document →
      Contributes d library name document) ↔ Glob.NamesItself name) ∧
    ('[' ∉ name.toList → (Glob.NamesItself name ↔ ∃ g, Glob.parse name = .ok g) ∧
      (¬ ['*', '*'] <:+: name.toList → Glob.NamesItself name)) := by
  refine ⟨⟨namesItself_of_contributes, fun hname d library document =>
    contributes_of_namesItself hname⟩, fun hopen => ⟨Glob.namesItself_iff_parse hopen, ?_⟩⟩
  exact fun hstars => (Glob.namesItself_iff_parse hopen).2 (Glob.exists_parse hopen hstars)

/-- Where a table names a document whose name has brackets, the document may be left out, or the
build fail. -/
theorem bracketed_left_out :
    (∀ name, (lone name).get? name = some (Keyed.ofList [("A", ∅)])) ∧
    build bare (lone "[draft].ini") [⟨"T", ["[draft].ini"], none⟩] =
      .ok (Keyed.ofList [("T", ∅)]) ∧
    build bare (lone "a[.ini") [⟨"T", ["a[.ini"], none⟩] =
      .error ⟨"a[.ini", ⟨1, .badClass⟩⟩ :=
  ⟨get?_lone, by decide +kernel⟩

end Registry

end SectionCompiler
