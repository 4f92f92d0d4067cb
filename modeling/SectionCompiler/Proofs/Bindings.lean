import Mathlib.Data.List.Nodup
import SectionCompiler.Proofs.Maps
import SectionCompiler.Template.Store

/-! The names of stored templates. A template file gives every section a name of its own; when all
bodies could be stored, each name has the body that came last under it. -/

namespace SectionCompiler.TemplateStore

variable {store store' : TemplateStore} {bs bs' before after : List (String × Section)}
  {name : String} {body : Section}

theorem addAll_cons_eq_ok {e : String × Section} : store.addAll (e :: bs) = (.ok (), store') ↔
    ∃ t, Template.ofBody e.1 e.2 = .ok t ∧
      TemplateStore.addAll (store.insert e.1 t) bs = (.ok (), store') := by
  rw [addAll, add]
  cases Template.ofBody e.1 e.2 with
  | error fault => exact iff_of_false nofun nofun
  | ok t => simp [Except.map]

theorem addAll_append_eq_ok : store.addAll (bs ++ bs') = (.ok (), store') ↔
    ∃ between, store.addAll bs = (.ok (), between) ∧
      TemplateStore.addAll between bs' = (.ok (), store') := by
  induction bs generalizing store with
  | nil => simp [addAll]
  | cons e bs ih =>
    simp only [List.cons_append, addAll_cons_eq_ok, ih]
    constructor
    · rintro ⟨t, ht, between, h, h'⟩
      exact ⟨between, ⟨t, ht, h⟩, h'⟩
    · rintro ⟨between, ⟨t, ht, h⟩, h'⟩
      exact ⟨t, ht, between, h, h'⟩

theorem get?_addAll_of_notMem (h : store.addAll bs = (.ok (), store'))
    (hname : name ∉ bs.map Prod.fst) : store'.get? name = store.get? name := by
  induction bs generalizing store with
  | nil => exact (Prod.mk.inj h).2 ▸ rfl
  | cons e bs ih =>
    obtain ⟨hne, hrest⟩ := List.ne_and_not_mem_of_not_mem_cons hname
    obtain ⟨t, -, h⟩ := addAll_cons_eq_ok.1 h
    rw [ih h hrest, Catalog.get?_insert, if_neg hne]

theorem get?_addAll_of_last (h : store.addAll (before ++ (name, body) :: after) = (.ok (), store'))
    (hlast : name ∉ after.map Prod.fst) :
    ∃ t, store'.get? name = some t ∧ Template.ofBody name body = .ok t := by
  obtain ⟨between, -, h⟩ := addAll_append_eq_ok.1 h
  obtain ⟨t, ht, h⟩ := addAll_cons_eq_ok.1 h
  refine ⟨t, ?_, ht⟩
  rw [get?_addAll_of_notMem h hlast, Catalog.get?_insert, if_pos rfl]

theorem mem_bindings_iff {stem : String} {file : Document} :
    (name, body) ∈ bindings stem file ↔
      (∃ heading, name = stem ++ ":" ++ heading ∧ file.get? heading = some body) ∨
        name = stem ∧ ∃ heading, file.entries = [(heading, body)] := by
  have hall : (name, body) ∈ file.entries.map (fun e => (stem ++ ":" ++ e.1, e.2)) ↔
      ∃ heading, name = stem ++ ":" ++ heading ∧ file.get? heading = some body := by
    simp only [List.mem_map, Keyed.get?_eq_some_iff, Prod.exists, Prod.mk.injEq]
    constructor
    · rintro ⟨heading, _, hmem, rfl, rfl⟩
      exact ⟨heading, rfl, hmem⟩
    · rintro ⟨heading, rfl, hmem⟩
      exact ⟨heading, body, hmem, rfl, rfl⟩
  unfold bindings
  split
  · next heading only hentries =>
    rw [List.mem_cons, hall, hentries, Prod.mk.injEq, or_comm]
    refine or_congr_right (and_congr_right fun _ => ?_)
    simp [eq_comm]
  · next hmany =>
    rw [hall]
    refine (or_iff_left ?_).symm
    rintro ⟨-, heading, hentries⟩
    exact hmany heading body hentries

theorem nodup_bindings (stem : String) (file : Document) :
    ((bindings stem file).map Prod.fst).Nodup := by
  have hinj : Function.Injective fun heading : String => stem ++ ":" ++ heading := by
    intro a b h
    exact String.toList_inj.1 (by simpa using congrArg String.toList h)
  have hall : ((file.entries.map fun e => (stem ++ ":" ++ e.1, e.2)).map Prod.fst).Nodup := by
    have hnames := file.nodup.map hinj
    rw [List.map_map] at hnames ⊢
    exact hnames
  unfold bindings
  split
  · rw [List.map_cons]
    refine List.nodup_cons.2 ⟨fun hmem => ?_, hall⟩
    -- the name of the file is shorter than those of its sections
    obtain ⟨_, he, hstem⟩ := List.mem_map.1 hmem
    obtain ⟨⟨heading, _⟩, -, rfl⟩ := List.mem_map.1 he
    have hlength := congrArg String.length hstem
    simp only [String.length_append] at hlength
    have hcolon : ":".length = 1 := rfl
    omega
  · exact hall

end SectionCompiler.TemplateStore
