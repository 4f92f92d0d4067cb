import SectionCompiler.Proofs.Answers
import SectionCompiler.Proofs.Drafts
import SectionCompiler.Proofs.Lookup
import SectionCompiler.Settings.File

/-! The report of unknown keys in settings laid out in rows. A key before the first header is
reported on its line. A key of a registry table is reported on the first line of such a key below a
plain header, which is its own line exactly when its header is plain and no plain table before it
has the key. -/

namespace SectionCompiler.Settings

variable {key : String} {n : Nat} {ks ks' : List (Nat × String)}

theorem firstLine_of_not_mem (h : key ∉ ks.map Prod.snd) : firstLine key ks = 0 := by
  have hnone : ks.find? (fun k => k.2 = key) = none :=
    List.find?_eq_none.2 fun k hk hkey => h (List.mem_map.2 ⟨k, hk, of_decide_eq_true hkey⟩)
  rw [firstLine, hnone]
  rfl

theorem mem_of_firstLine (h : key ∈ ks.map Prod.snd) : (firstLine key ks, key) ∈ ks := by
  obtain ⟨k, hk, rfl⟩ := List.mem_map.1 h
  have hsome : (ks.find? fun k' => k'.2 = k.2).isSome = true :=
    List.find?_isSome.2 ⟨k, hk, by simp⟩
  obtain ⟨k', hk'⟩ := Option.isSome_iff_exists.1 hsome
  have hkey : k'.2 = k.2 := by simpa using List.find?_some hk'
  rw [firstLine, hk', ← hkey]
  exact List.mem_of_find?_eq_some hk'

theorem firstLine_append :
    firstLine key (ks ++ ks') =
      if key ∈ ks.map Prod.snd then firstLine key ks else firstLine key ks' := by
  induction ks with
  | nil => simp
  | cons k ks ih =>
    rw [List.cons_append, firstLine_cons, firstLine_cons, ih, List.map_cons]
    by_cases hk : k.2 = key
    · rw [if_pos hk, if_pos hk, if_pos (List.mem_cons.2 (.inl hk.symm))]
    · rw [if_neg hk, if_neg hk]
      exact if_congr (by simp [Ne.symm hk]) rfl rfl

theorem firstLine_eq_of_mem (h : (ks.map Prod.snd).Nodup) (hmem : (n, key) ∈ ks) :
    firstLine key ks = n := by
  have hfirst := mem_of_firstLine (List.mem_map.2 ⟨_, hmem, rfl⟩)
  exact congrArg Prod.fst (List.inj_on_of_nodup_map h hfirst hmem rfl)

namespace Row

def keys (n : Nat) (rows : List Row) : List (Nat × String) :=
  block n rows ++ (tables n rows).flatMap TableRows.keys

theorem le_of_mem_keys {rows : List Row} : ∀ k ∈ keys n rows, n ≤ k.1 := by
  induction rows generalizing n with
  | nil => nofun
  | cons row rows ih =>
    have hrest : ∀ k ∈ keys (n + 1) rows, n ≤ k.1 := fun k hk =>
      Nat.le_of_succ_le (ih k hk)
    cases row with
    | filler => exact hrest
    | header plain => exact hrest
    | entry key => exact List.forall_mem_cons.2 ⟨Nat.le_refl n, hrest⟩

theorem pairwise_keys (n : Nat) (rows : List Row) :
    (keys n rows).Pairwise fun k k' => k.1 < k'.1 := by
  induction rows generalizing n with
  | nil => exact List.Pairwise.nil
  | cons row rows ih =>
    cases row with
    | filler => exact ih (n + 1)
    | header plain => exact ih (n + 1)
    | entry key => exact List.Pairwise.cons le_of_mem_keys (ih (n + 1))

end Row

section OwnLine

variable {t : TableRows} {before after : List TableRows}

theorem mem_plainKeys {k : Nat × String} :
    k ∈ plainKeys before ↔ ∃ t ∈ before, t.plain = true ∧ k ∈ t.keys := by
  simp [plainKeys, List.mem_flatMap, and_assoc]

theorem plainKeys_append (ts ts' : List TableRows) :
    plainKeys (ts ++ ts') = plainKeys ts ++ plainKeys ts' := by
  simp [plainKeys]

/-- The first key of a name among plain tables is the one in a table of theirs when that table is
plain and none before it has such a key. -/
theorem firstLine_eq_iff (hlines : ((before ++ t :: after).flatMap TableRows.keys).Pairwise
      fun k k' => k.1 < k'.1) (hpos : 0 < n) (hnodup : t.names.Nodup) (hkey : (n, key) ∈ t.keys) :
    firstLine key (plainKeys (before ++ t :: after)) = n ↔
      t.plain = true ∧ ∀ t' ∈ before, t'.plain = true → key ∉ t'.names := by
  rw [List.flatMap_append, List.flatMap_cons] at hlines
  obtain ⟨-, hrest, hbefore⟩ := List.pairwise_append.1 hlines
  obtain ⟨-, -, hafter⟩ := List.pairwise_append.1 hrest
  have hnot : ∀ t' ∈ before, (n, key) ∉ t'.keys := fun t' ht' hk =>
    Nat.lt_irrefl n (hbefore _ (List.mem_flatMap.2 ⟨t', ht', hk⟩) _ (List.mem_append_left _ hkey))
  have hnot' : ∀ t' ∈ after, (n, key) ∉ t'.keys := fun t' ht' hk =>
    Nat.lt_irrefl n (hafter _ hkey _ (List.mem_flatMap.2 ⟨t', ht', hk⟩))
  constructor
  · intro h
    refine ⟨?_, fun t' ht' hplain' hkey' => ?_⟩
    · have hmem : key ∈ (plainKeys (before ++ t :: after)).map Prod.snd := by
        by_contra hmem
        rw [firstLine_of_not_mem hmem] at h
        exact Nat.lt_irrefl 0 (h ▸ hpos)
      have hfirst := mem_of_firstLine hmem
      rw [h] at hfirst
      obtain ⟨t', ht', hplain', hk'⟩ := mem_plainKeys.1 hfirst
      rcases List.mem_append.1 ht' with hb | hb
      · exact absurd hk' (hnot t' hb)
      · rcases List.mem_cons.1 hb with rfl | ha
        · exact hplain'
        · exact absurd hk' (hnot' t' ha)
    · obtain ⟨k, hk, rfl⟩ := List.mem_map.1 hkey'
      have hmem : k.2 ∈ (plainKeys before).map Prod.snd :=
        List.mem_map.2 ⟨k, mem_plainKeys.2 ⟨t', ht', hplain', hk⟩, rfl⟩
      rw [plainKeys_append, firstLine_append, if_pos hmem] at h
      have hfirst := mem_of_firstLine hmem
      rw [h] at hfirst
      obtain ⟨t'', ht'', -, hk''⟩ := mem_plainKeys.1 hfirst
      exact hnot t'' ht'' hk''
  · rintro ⟨hplain, hnone⟩
    have hkeys : plainKeys (t :: after) = t.keys ++ plainKeys after := by
      simp [plainKeys, hplain]
    have hmiss : key ∉ (plainKeys before).map Prod.snd := by
      intro hmem
      obtain ⟨k, hk, rfl⟩ := List.mem_map.1 hmem
      obtain ⟨t', ht', hplain', hk'⟩ := mem_plainKeys.1 hk
      exact hnone t' ht' hplain' (List.mem_map.2 ⟨k, hk', rfl⟩)
    rw [plainKeys_append, firstLine_append, if_neg hmiss, hkeys, firstLine_append,
      if_pos (List.mem_map.2 ⟨_, hkey, rfl⟩), firstLine_eq_of_mem hnodup hkey]

end OwnLine

/-- The line on which a key of a table is reported, by the number of the table. -/
def tableLine (rows : List Row) (i : Nat) (key : String) : Nat :=
  if i < Nat.pow 2 64 then firstLine key (plainKeys (Row.tables 1 rows)) else 0

/-- What is reported of the keys before any header. What is reported of values that stand in
the value of `registry` itself comes in its place. -/
def topReport (path : String) (inner : List UnknownKey) (rows : List Row) : List UnknownKey :=
  (Row.block 1 rows).flatMap fun (n, key) =>
    if key = "registry" then inner else if key ∈ layerKeys then [] else [⟨key, path, n⟩]

def tableReport (path : String) (rows : List Row) : List UnknownKey :=
  (Row.tables 1 rows).zipIdx.flatMap fun (t, i) =>
    (t.names.filter (· ∉ tableKeys)).map fun key =>
      ⟨s!"registry.{i}.{key}", path, tableLine rows i key⟩

theorem tableLine_eq_iff {rows : List Row} {t : TableRows} {i : Nat}
    (ht : (Row.tables 1 rows)[i]? = some t) (hnodup : t.names.Nodup) (hkey : (n, key) ∈ t.keys) :
    tableLine rows i key = n ↔ i < Nat.pow 2 64 ∧ t.plain = true ∧
      ∀ t' ∈ (Row.tables 1 rows).take i, t'.plain = true → key ∉ t'.names := by
  obtain ⟨hi, rfl⟩ := List.getElem?_eq_some_iff.1 ht
  have hsplit : (Row.tables 1 rows).take i ++
      (Row.tables 1 rows)[i] :: (Row.tables 1 rows).drop (i + 1) = Row.tables 1 rows := by
    rw [List.getElem_cons_drop, List.take_append_drop]
  have hkeys : (n, key) ∈ Row.keys 1 rows :=
    List.mem_append_right _ (List.mem_flatMap.2 ⟨_, List.getElem_mem hi, hkey⟩)
  have hpos : 0 < n := Row.le_of_mem_keys _ hkeys
  have hlines := (List.pairwise_append.1 (Row.pairwise_keys 1 rows)).2.1
  rw [← hsplit] at hlines
  have hown := firstLine_eq_iff hlines hpos hnodup hkey
  rw [hsplit] at hown
  unfold tableLine
  by_cases hsize : i < Nat.pow 2 64
  · rw [if_pos hsize, hown]
    exact (and_iff_right hsize).symm
  · rw [if_neg hsize]
    exact iff_of_false hpos.ne fun h => hsize h.1

section Report

variable {es : Pairs} {layer : Layer} {ways : List KeyPath}

theorem unknown_of_table {t : RegistryTable × List String}
    (h : TomlReader.reader.table (.table es) = some t) :
    t.2 = Reader.unknownKeys tableKeys es := by
  obtain ⟨target, -, h⟩ := Option.bind_eq_some_iff.1 h
  obtain ⟨sources, -, h⟩ := Option.bind_eq_some_iff.1 h
  obtain ⟨start, -, h⟩ := Option.bind_eq_some_iff.1 h
  exact (congrArg Prod.snd (Option.some.inj h)).symm

theorem unknown_of_tables {els : List Pairs} {ts : List (RegistryTable × List String)}
    (h : (els.map .table).mapM TomlReader.reader.table = some ts) :
    ts.map Prod.snd = els.map (Reader.unknownKeys tableKeys) := by
  induction els generalizing ts with
  | nil =>
    obtain rfl := Option.some.inj h
    rfl
  | cons es els ih =>
    rw [List.map_cons, List.mapM_cons] at h
    obtain ⟨t, ht, h⟩ := Option.bind_eq_some_iff.1 h
    obtain ⟨others, hothers, h⟩ := Option.bind_eq_some_iff.1 h
    obtain rfl := Option.some.inj h
    rw [List.map_cons, List.map_cons, unknown_of_table ht, ih hothers]

theorem unknown_of_layer (h : TomlReader.reader.layer (.table es) = some (layer, ways)) :
    ∃ ts, ways = Reader.unknownInLayer es ts ∧
      ∀ els : List Pairs, es.lookup "registry" = some (.array (els.map .table)) →
        ts = els.map (Reader.unknownKeys tableKeys) := by
  obtain ⟨inputRoot, -, h⟩ := Option.bind_eq_some_iff.1 h
  obtain ⟨outputPath, -, h⟩ := Option.bind_eq_some_iff.1 h
  obtain ⟨templateRoot, -, h⟩ := Option.bind_eq_some_iff.1 h
  obtain ⟨registryName, -, h⟩ := Option.bind_eq_some_iff.1 h
  obtain ⟨tables, htables, h⟩ := Option.bind_eq_some_iff.1 h
  obtain ⟨release, -, h⟩ := Option.bind_eq_some_iff.1 h
  obtain ⟨policy, -, h⟩ := Option.bind_eq_some_iff.1 h
  obtain ⟨maxDepth, -, h⟩ := Option.bind_eq_some_iff.1 h
  refine ⟨(tables.getD []).map Prod.snd, (congrArg Prod.snd (Option.some.inj h)).symm, ?_⟩
  intro els hels
  rw [Reader.optional, hels] at htables
  obtain ⟨present, hpresent, htables⟩ := Option.bind_eq_some_iff.1 htables
  obtain rfl := Option.some.inj hpresent
  obtain ⟨ts, hts, htables⟩ := Option.bind_eq_some_iff.1 htables
  obtain rfl := Option.some.inj htables
  exact unknown_of_tables hts

theorem Laid.bareKey {cs : List Char} {rows : List Row} (h : Laid cs rows) (n : Nat) :
    ∀ k ∈ Row.keys n rows, BareKey k.2 := by
  induction h generalizing n with
  | nil => nofun
  | filler hne hend _ ih => exact ih (n + 1)
  | header hmargin hgap hgap' hend _ ih => exact ih (n + 1)
  | entry hmargin hkey hgap hvalue hend _ ih => exact List.forall_mem_cons.2 ⟨hkey, ih (n + 1)⟩

variable {content path : String} {rows : List Row}

theorem unknownKey_key (hkey : BareKey key) (h : Laid content.toList rows) :
    unknownKey .toml path content [key] = ⟨key, path, firstLine key (Row.block 1 rows)⟩ := by
  rw [unknownKey, Language.line, tomlLine_key hkey h, dotted_key hkey, String.ofList_toList]

theorem unknownKey_tableKey (i : Nat) (hkey : BareKey key) (h : Laid content.toList rows) :
    unknownKey .toml path content ["registry", toString i, key] =
      ⟨s!"registry.{i}.{key}", path, tableLine rows i key⟩ := by
  have hdotted : dotted ["registry", toString i, key] = s!"registry.{i}.{key}".toList := by
    have hname : s!"registry.{i}.{key}" = "registry." ++ toString i ++ "." ++ key := rfl
    rw [dotted_tableKey, hkey.splitOn, hname,
      List.filter_cons_of_pos (by simpa using hkey.ne_mark)]
    simp [List.intercalate_cons_cons, List.intercalate_singleton]
  rw [unknownKey, Language.line, tomlLine_tableKey i hkey h, hdotted, String.ofList_toList]
  rfl

theorem map_unknownKey_top {inner : List UnknownKey} {ts : List (List String)}
    (h : Laid content.toList rows) (hnodup : ((Row.block 1 rows).map Prod.snd).Nodup)
    (hinner : "registry" ∈ (Row.block 1 rows).map Prod.snd →
      inner = (Reader.unknownInTables ts).map (unknownKey .toml path content))
    {top : Pairs} (htop : names top = (Row.block 1 rows).map Prod.snd) :
    (Reader.unknownInLayer top ts).map (unknownKey .toml path content) =
      topReport path inner rows := by
  have hlayer : Reader.unknownInLayer top ts = ((Row.block 1 rows).map Prod.snd).flatMap fun key =>
      if key = "registry" then Reader.unknownInTables ts
      else if key ∈ layerKeys then [] else [[key]] := by
    rw [← htop, names, List.flatMap_map]
    rfl
  rw [hlayer, List.flatMap_map, List.map_flatMap, topReport]
  refine List.flatMap_congr fun k hk => ?_
  have hmem : k.2 ∈ (Row.block 1 rows).map Prod.snd := List.mem_map.2 ⟨k, hk, rfl⟩
  dsimp only
  split
  · next hregistry => exact (hinner (hregistry ▸ hmem)).symm
  · split
    · rfl
    · rw [List.map_singleton, unknownKey_key (h.bareKey 1 k (List.mem_append_left _ hk)) h,
        firstLine_eq_of_mem hnodup hk]

theorem map_unknownKey_tables {els : List Pairs} (h : Laid content.toList rows)
    (hels : els.map names = (Row.tables 1 rows).map TableRows.names) :
    (Reader.unknownInTables (els.map (Reader.unknownKeys tableKeys))).map
      (unknownKey .toml path content) = tableReport path rows := by
  have hunknown : els.map (Reader.unknownKeys tableKeys) =
      (Row.tables 1 rows).map fun t => t.names.filter (· ∉ tableKeys) := by
    have hmap := congrArg (List.map (List.filter (· ∉ tableKeys))) hels
    rw [List.map_map, List.map_map] at hmap
    exact hmap
  rw [hunknown, Reader.unknownInTables, List.zipIdx_map, List.flatMap_map, List.map_flatMap,
    tableReport]
  refine List.flatMap_congr fun ⟨t, i⟩ ht => ?_
  dsimp only [Prod.map, id]
  rw [List.map_map]
  refine List.map_congr_left fun key hkey => ?_
  obtain ⟨k, hk, rfl⟩ := List.mem_map.1 (List.mem_of_mem_filter hkey)
  have hmem : k ∈ Row.keys 1 rows := List.mem_append_right _
    (List.mem_flatMap.2 ⟨t, (List.mem_zipIdx ht).2.2 ▸ List.getElem_mem _, hk⟩)
  exact unknownKey_tableKey i (h.bareKey 1 k hmem) h

theorem map_unknownKey_registry {top : Pairs} {els : List Pairs} {ts : List (List String)}
    (h : Laid content.toList rows) (hsound : Sound top els)
    (hels : els.reverse.map names = (Row.tables 1 rows).map TableRows.names)
    (hts : ∀ els' : List Pairs,
      (top ++ registryOf els).lookup "registry" = some (.array (els'.map .table)) →
      ts = els'.map (Reader.unknownKeys tableKeys)) :
    (Reader.unknownInLayer (registryOf els) ts).map (unknownKey .toml path content) =
      tableReport path rows := by
  rcases List.eq_nil_or_concat els with rfl | hne
  · have htables : Row.tables 1 rows = [] := List.map_eq_nil_iff.1 hels.symm
    rw [tableReport, htables]
    rfl
  · have hels' : els ≠ [] := by
      obtain ⟨others, es, rfl⟩ := hne
      simp
    have hlookup : (top ++ registryOf els).lookup "registry" =
        some (.array (els.reverse.map .table)) := by
      rw [List.lookup_append, lookup_eq_none_iff.2 (hsound.registry hels'), registryOf,
        if_neg hels']
      rfl
    rw [hts _ hlookup, registryOf, if_neg hels', ← map_unknownKey_tables h hels]
    exact congrArg _ (List.append_nil _)

theorem report_of_ofToml? (h : Laid content.toList rows)
    (hread : ofToml? content = some (layer, ways)) :
    (∃ inner, (∀ u ∈ inner, u.path = path ∧ u.line = 0) ∧
      ways.map (unknownKey .toml path content) =
        topReport path inner rows ++ tableReport path rows) ∧
      ∀ t ∈ Row.tables 1 rows, t.names.Nodup := by
  obtain ⟨es, hparse, hread⟩ := Option.bind_eq_some_iff.1 hread
  obtain ⟨top, els, rfl, hsound, htop, hels⟩ := parse?_laid h hparse 1
  obtain ⟨ts, rfl, hts⟩ := unknown_of_layer hread
  have hnodup : ((Row.block 1 rows).map Prod.snd).Nodup := htop ▸ hsound.nodup
  have hsplit : Reader.unknownInLayer (top ++ registryOf els) ts =
      Reader.unknownInLayer top ts ++ Reader.unknownInLayer (registryOf els) ts :=
    List.flatMap_append
  refine ⟨?_, fun t ht => ?_⟩
  · rw [hsplit, List.map_append, map_unknownKey_registry h hsound hels hts]
    by_cases hregistry : "registry" ∈ (Row.block 1 rows).map Prod.snd
    · refine ⟨_, fun u hu => ?_,
        congrArg (· ++ _) (map_unknownKey_top h hnodup (fun _ => rfl) htop)⟩
      have htables : Row.tables 1 rows = [] := by
        by_contra hne
        have hels' : els ≠ [] := by
          rintro rfl
          exact hne (List.map_eq_nil_iff.1 hels.symm)
        exact hsound.registry hels' (htop ▸ hregistry)
      obtain ⟨way, hway, rfl⟩ := List.mem_map.1 hu
      obtain ⟨⟨inside, i⟩, -, hway⟩ := List.mem_flatMap.1 hway
      obtain ⟨key, -, rfl⟩ := List.mem_map.1 hway
      exact ⟨rfl, tomlLine_eq_zero i key h htables⟩
    · exact ⟨[], nofun, congrArg (· ++ _)
        (map_unknownKey_top h hnodup (fun h => absurd h hregistry) htop)⟩
  · have hnames := List.mem_map_of_mem (f := TableRows.names) ht
    rw [← hels] at hnames
    obtain ⟨es, hes, heq⟩ := List.mem_map.1 hnames
    exact heq ▸ hsound.tables es (List.mem_reverse.1 hes)

theorem exists_ways_of_check {keys : List UnknownKey}
    (h : check path content = .error (.unknownKeys keys)) :
    ∃ layer ways, (Language.forCheck path).read? content = some (layer, ways) ∧
      keys = ways.map (unknownKey (Language.forCheck path) path content) := by
  unfold check at h
  split at h
  · cases h
  · dsimp only at h
    split at h
    · cases h
    · cases h
    · next layer way ways hread =>
      cases h
      exact ⟨layer, way :: ways, hread, rfl⟩

theorem check_of_load {d : Disk} {e : Environment} {keys : List UnknownKey}
    (hread : d.read path = .ok content)
    (h : load d e path true = .error (.unknownKeys keys)) :
    check path content = .error (.unknownKeys keys) := by
  rw [load, hread] at h
  rcases bind_eq_error.1 h with h | ⟨content, hcontent, h⟩
  · cases h
  obtain rfl := Except.ok.inj hcontent
  unfold ofContent at h
  rw [if_pos rfl] at h
  rcases bind_eq_error.1 h with h | ⟨checked, hchecked, h⟩
  · exact h
  rcases bind_eq_error.1 h with h | ⟨first, hfirst, h⟩
  · cases hlayer : e.layer <;> rw [hlayer] at h <;> cases h
  rcases bind_eq_error.1 h with h | ⟨second, hsecond, h⟩
  · unfold fileLayer at h
    split at h
    · cases h
    · split at h
      · cases h
      · split at h <;> cases h
  rcases bind_eq_error.1 h with h | ⟨settings, hsettings, h⟩
  · cases hs : (first.overlay second).settings <;> rw [hs] at h <;> cases h
  · cases h

end Report

/-- The report of a strict load names the unknown keys in their order. A key before any header has
its own line, and a key of a registry table has the first line of such a key below a plain header.
That is its own line exactly when its header is plain and no plain table before it has the key. -/
theorem unknown_keys_reported {d : Disk} {e : Environment} {path content : String}
    {rows : List Row} {keys : List UnknownKey} (hread : d.read path = .ok content)
    (hlanguage : Language.forCheck path = .toml) (hlaid : Laid content.toList rows)
    (hload : load d e path true = .error (.unknownKeys keys)) :
    (∃ inner, (∀ u ∈ inner, u.path = path ∧ u.line = 0) ∧
      keys = topReport path inner rows ++ tableReport path rows) ∧
    ∀ i t n key, (Row.tables 1 rows)[i]? = some t → (n, key) ∈ t.keys →
      (tableLine rows i key = n ↔ i < Nat.pow 2 64 ∧ t.plain = true ∧
        ∀ t' ∈ (Row.tables 1 rows).take i, t'.plain = true → key ∉ t'.names) := by
  obtain ⟨layer, ways, hways, rfl⟩ := exists_ways_of_check (check_of_load hread hload)
  rw [hlanguage] at hways ⊢
  obtain ⟨hreport, hnodup⟩ := report_of_ofToml? hlaid hways
  exact ⟨hreport, fun i t n key ht hkey =>
    tableLine_eq_iff ht (hnodup t (List.mem_of_getElem? ht)) hkey⟩

def entryLine (key value : String) (rest : List Char) : List Char :=
  key.toList ++ ([' '] ++ '=' :: ' ' :: (value.toList ++ '\n' :: rest))

def tableLines (rest : List Char) : List Char :=
  "[[registry]]".toList ++ '\n' :: entryLine "target" "\"A\""
    (entryLine "sources" "[]" (entryLine "begin" "true" rest))

/-- Settings with three unknown keys, two of which have the same name. -/
def twins : String := String.ofList (entryLine "relase" "true" (tableLines (tableLines [])))

def tableRows : List Row := [.header true, .entry "target", .entry "sources", .entry "begin"]

def twinRows : List Row := .entry "relase" :: (tableRows ++ tableRows)

def twinDisk : Disk := ⟨.file "a.toml" (.text twins) .empty, []⟩

section Twins

variable {rest : List Char} {rows : List Row}

theorem laid_entryLine {key value : String} (hkey : BareKey key)
    (hvalue : HasValue (Toml.skipBlanks (' ' :: (value.toList ++ '\n' :: rest))) ('\n' :: rest))
    (h : Laid rest rows) : Laid (entryLine key value rest) (.entry key :: rows) :=
  @Laid.entry [] [' '] _ _ _ key _ nofun hkey (by simp [Blanks]; decide) hvalue rfl h

theorem laid_tableLines (h : Laid rest rows) : Laid (tableLines rest) (tableRows ++ rows) := by
  refine @Laid.header [] [] [] _ _ _ nofun nofun nofun rfl ?_
  refine laid_entryLine (bareKey_of_all (by decide) rfl)
    ⟨.string "A", "\"A\"".toList, rfl, by decide, rfl⟩ ?_
  refine laid_entryLine (bareKey_of_all (by decide) rfl)
    ⟨.array [], "[]".toList, rfl, by decide, rfl⟩ ?_
  exact laid_entryLine (bareKey_of_all (by decide) rfl)
    ⟨.boolean true, "true".toList, rfl, by decide, rfl⟩ h

theorem laid_twins : Laid twins.toList twinRows := by
  rw [twins, String.toList_ofList]
  refine laid_entryLine (bareKey_of_all (by decide) rfl)
    ⟨.boolean true, "true".toList, rfl, by decide, rfl⟩ ?_
  exact laid_tableLines (laid_tableLines .nil)

end Twins

def twinReport : List UnknownKey :=
  [⟨"relase", "a.toml", 1⟩, ⟨"registry.0.begin", "a.toml", 5⟩, ⟨"registry.1.begin", "a.toml", 5⟩]

theorem load_twins : load twinDisk {} "a.toml" true = .error (.unknownKeys twinReport) := by
  decide +kernel

/-- The key on line 9 is reported on line 5, where the table before has a key of its name. -/
theorem second_key_reported_at_first :
    Laid twins.toList twinRows ∧
    (Row.tables 1 twinRows)[1]? = some ⟨true, [(7, "target"), (8, "sources"), (9, "begin")]⟩ ∧
    ⟨"registry.1.begin", "a.toml", 5⟩ ∈ twinReport ∧
    load twinDisk {} "a.toml" true = .error (.unknownKeys twinReport) :=
  ⟨laid_twins, by decide, by decide, load_twins⟩

/-- The key on line 5 is reported there, and the key on line 9 is not. -/
theorem unknown_keys_reported_twins :
    twinDisk.read "a.toml" = .ok twins ∧ Language.forCheck "a.toml" = .toml ∧
    Laid twins.toList twinRows ∧
    load twinDisk {} "a.toml" true = .error (.unknownKeys twinReport) ∧
    (∃ inner, (∀ u ∈ inner, u.path = "a.toml" ∧ u.line = 0) ∧
      twinReport = topReport "a.toml" inner twinRows ++ tableReport "a.toml" twinRows) ∧
    tableLine twinRows 0 "begin" = 5 ∧ tableLine twinRows 1 "begin" ≠ 9 := by
  have hread : twinDisk.read "a.toml" = .ok twins := by decide +kernel
  have hlanguage : Language.forCheck "a.toml" = .toml := by decide +kernel
  obtain ⟨hreport, hline⟩ := unknown_keys_reported hread hlanguage laid_twins load_twins
  refine ⟨hread, hlanguage, laid_twins, load_twins, hreport, ?_, fun h => ?_⟩
  · exact (hline 0 _ 5 "begin" rfl (by decide)).2 ⟨by decide, rfl, nofun⟩
  · obtain ⟨-, -, hnone⟩ := (hline 1 _ 9 "begin" rfl (by decide)).1 h
    exact absurd (by decide) (hnone _ List.mem_cons_self rfl)

end SectionCompiler.Settings
