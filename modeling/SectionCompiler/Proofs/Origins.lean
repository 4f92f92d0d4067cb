import Mathlib.Data.List.Infix
import Mathlib.Logic.Relation
import SectionCompiler.Proofs.Folding
import SectionCompiler.Proofs.Learning

/-! Where the entries of a resolved section come from. Each of them stood in a section that the run
met, or was made there by a template, also when it came out of the memory: what a run that started
without memory remembers, it resolved itself. So only two kinds of directives can be left in a
resolved section, and without templates there is nothing left to resolve in it. -/

namespace SectionCompiler

theorem Directive.ofKey?_eq_inherit_iff {key : String} :
    Directive.ofKey? key = some .inherit ↔ key = Directive.inheritKey := by
  unfold Directive.ofKey?
  split
  · next h => simp [h]
  · next h => split <;> simp [h]

namespace Resolution

open Inheritance Direct Relation

/-- A section, and the document in which its references are read. -/
structure Site where
  caller : Option String
  content : Section
  deriving DecidableEq, Repr

/-- The run found no memory of a reference, found its section, and remembered it when it had put the
section together. -/
def Settles (log : List Access) (t : Reference) : Prop :=
  ∃ before inner after, log =
    before ++ .fetch t.key false :: .look t.document true :: inner ++ .store t.key :: after

/-- A section names a reference, and the run settled a reference of the same key with the section
`b`. The two references may differ where documents have a colon in their names. -/
def Takes (l : Library) (log : List Access) (a b : Site) : Prop :=
  ∃ t t', Names a.caller a.content t ∧ t'.key = t.key ∧ Settles log t' ∧
    b.caller = some t'.document ∧ target? l t' = some b.content

/-- The run met a section on behalf of another one. -/
def Meets (l : Library) (log : List Access) : Site → Site → Prop := ReflTransGen (Takes l log)

/-- What an entry turns into when it takes nothing from other sections. -/
inductive Makes (templates : Option TemplateStore) (d : Entry) : Entry → Prop where
  | plain (h : Directive.ofKey? d.1 = none) : Makes templates d d
  | kept {name : String} (h : Directive.ofKey? d.1 = some (.template name))
      (ht : templates = none) : Makes templates d d
  | expanded {name : String} {store : TemplateStore} {t : Template} {e : Entry}
      (h : Directive.ofKey? d.1 = some (.template name)) (ht : templates = some store)
      (hfind : store.find? name d.2 = some t) (he : e ∈ (t.expand d.2.arguments).entries) :
      Makes templates d e

/-- An entry was made from an entry of a section that the run met on behalf of `a`. -/
def Stems (s : Sources) (log : List Access) (a : Site) (e : Entry) : Prop :=
  ∃ b, Meets s.library log a b ∧ ∃ d ∈ b.content.entries, Makes s.templates d e

variable {s : Sources} {log log' : List Access} {caller : Option String} {raw : String}
  {chain : Chain} {content v : Section} {r t : Reference} {m m' : Memory} {e : Entry} {a b : Site}

theorem Settles.mono (hlog : log <+: log') (h : Settles log t) : Settles log' t := by
  obtain ⟨before, inner, after, rfl⟩ := h
  obtain ⟨more, rfl⟩ := hlog
  exact ⟨before, inner, after ++ more, by simp⟩

theorem Takes.mono {l : Library} (hlog : log <+: log') (h : Takes l log a b) : Takes l log' a b := by
  obtain ⟨t, t', hname, hkey, hsettles, htarget⟩ := h
  exact ⟨t, t', hname, hkey, hsettles.mono hlog, htarget⟩

theorem Stems.mono (hlog : log <+: log') (h : Stems s log a e) : Stems s log' a e := by
  obtain ⟨b, hmeets, hmakes⟩ := h
  exact ⟨b, ReflTransGen.mono (fun _ _ => Takes.mono hlog) _ _ hmeets, hmakes⟩

theorem Stems.of_takes (h : Takes s.library log a b) (hb : Stems s log b e) : Stems s log a e := by
  obtain ⟨c, hmeets, hmakes⟩ := hb
  exact ⟨c, .head h hmeets, hmakes⟩

theorem Makes.stems {d : Entry} (h : Makes s.templates d e) (hd : d ∈ a.content.entries) :
    Stems s log a e :=
  ⟨a, .refl, d, hd, h⟩

/-- The run settled a reference of this key, and the entries of the content stem from its
section. -/
def Rooted (s : Sources) (log : List Access) (key : String) (v : Section) : Prop :=
  ∃ t content, t.key = key ∧ Settles log t ∧ target? s.library t = some content ∧
    ∀ e ∈ v.entries, Stems s log ⟨some t.document, content⟩ e

theorem Rooted.mono {key : String} (hlog : log <+: log') (h : Rooted s log key v) :
    Rooted s log' key v := by
  obtain ⟨t, content, hkey, hsettles, htarget, hstems⟩ := h
  exact ⟨t, content, hkey, hsettles.mono hlog, htarget, fun e he => (hstems e he).mono hlog⟩

/-- All that is remembered was settled by the run itself. -/
def Sourced (s : Sources) (m : Memory) : Prop :=
  ∀ key v, m.cache.get? key = some v → Rooted s m.log key v

theorem sourced_empty (s : Sources) : Sourced s ∅ := by
  intro key v h
  cases h

theorem Sourced.mono (h : Sourced s m) (hcache : m'.cache = m.cache) (hlog : m.log <+: m'.log) :
    Sourced s m' :=
  fun key v hv => (h key v (hcache ▸ hv)).mono hlog

/-! ### Steps that succeed -/

section

variable {α β : Type}

/-- A step that succeeds goes on in the log, keeps all that is remembered sourced, and has a value
that `Q` tells of the log. -/
def Tracks (s : Sources) (Q : List Access → α → Prop) (step : Resolution α) : Prop :=
  ∀ ⦃m x m'⦄, Sourced s m → step m = (.ok x, m') → Sourced s m' ∧ m.log <+: m'.log ∧ Q m'.log x

theorem tracks_pure {Q : List Access → α → Prop} {x : α} (h : ∀ log, Q log x) :
    Tracks s Q (pure x) := by
  intro m y m' hm hrun
  obtain ⟨rfl, rfl⟩ := run_pure_ok_iff.1 hrun
  exact ⟨hm, List.prefix_rfl, h _⟩

theorem Tracks.map {Q : List Access → α → Prop} {Q' : List Access → β → Prop} {x : Resolution α}
    (h : Tracks s Q x) (f : α → β) (hf : ∀ log y, Q log y → Q' log (f y)) :
    Tracks s Q' (x >>= fun y => pure (f y)) := by
  intro m z m' hm hrun
  obtain ⟨y, m₁, hx, hpure⟩ := run_bind_ok_iff.1 hrun
  obtain ⟨rfl, rfl⟩ := run_pure_ok_iff.1 hpure
  obtain ⟨hm', hlog, hy⟩ := h hm hx
  exact ⟨hm', hlog, hf _ y hy⟩

/-- What holds of a value stays true while the log goes on, so it holds of all values in the
end. -/
theorem tracks_mapM {Q : List Access → β → Prop} {f : α → Resolution β} {xs : List α}
    (hmono : ∀ log log' y, log <+: log' → Q log y → Q log' y) (h : ∀ x ∈ xs, Tracks s Q (f x)) :
    Tracks s (fun log ys => ∀ y ∈ ys, Q log y) (xs.mapM f) := by
  induction xs with
  | nil => exact tracks_pure fun _ _ hy => absurd hy List.not_mem_nil
  | cons x rest ih =>
    obtain ⟨hx, hrest⟩ := List.forall_mem_cons.1 h
    intro m zs m' hm hrun
    rw [List.mapM_cons] at hrun
    obtain ⟨y, m₁, hfirst, hrun⟩ := run_bind_ok_iff.1 hrun
    obtain ⟨hm₁, hlog, hy⟩ := hx hm hfirst
    obtain ⟨ys, m₂, hthen, hpure⟩ := run_bind_ok_iff.1 hrun
    obtain ⟨rfl, rfl⟩ := run_pure_ok_iff.1 hpure
    obtain ⟨hm₂, hlog', hys⟩ := ih hrest hm₁ hthen
    exact ⟨hm₂, hlog.trans hlog', List.forall_mem_cons.2 ⟨hmono _ _ y hlog' hy, hys⟩⟩

end

/-- A step for a reference tells where the content of its key comes from. -/
def Refers (s : Sources) (caller : Option String) (step : String → Resolution Section) : Prop :=
  ∀ raw, Tracks s
    (fun log v => ∃ t, Reference.parse raw caller = .ok t ∧ Rooted s log t.key v) (step raw)

/-- What is rooted under the key of a named reference stems from the section that names it. -/
theorem Rooted.stems (h : Rooted s log t.key v) (hname : Names caller content t)
    (he : e ∈ v.entries) : Stems s log ⟨caller, content⟩ e := by
  obtain ⟨t', content', hkey, hsettles, htarget, hstems⟩ := h
  exact (hstems e he).of_takes ⟨t, t', hname, hkey, hsettles, rfl, htarget⟩

theorem tracks_expandEntry {step : String → Resolution Section} (hstep : Refers s caller step)
    {d : Entry} (hd : d ∈ content.entries) :
    Tracks s (fun log part => ∀ e ∈ part, Stems s log ⟨caller, content⟩ e)
      (expandEntry step s.templates d) := by
  have hself (h : Makes s.templates d d) : Tracks s
      (fun log part => ∀ e ∈ part, Stems s log ⟨caller, content⟩ e) (pure [d]) :=
    tracks_pure fun log e he => List.mem_singleton.1 he ▸ h.stems hd
  unfold expandEntry
  cases hkey : Directive.ofKey? d.1 with
  | none => exact hself (.plain hkey)
  | some directive =>
    cases directive with
    | inherit =>
      have hrefer : ∀ raw ∈ d.2.strings, Tracks s
          (fun log v => ∀ e ∈ v.entries, Stems s log ⟨caller, content⟩ e) (step raw) := by
        intro raw hraw m v m' hm hrun
        obtain ⟨hm', hlog, t, hparse, hrooted⟩ := hstep raw hm hrun
        have hname : Names caller content t :=
          ⟨raw, Section.mem_references_iff.2 ⟨d, hd, hkey, hraw⟩, hparse⟩
        exact ⟨hm', hlog, fun e he => hrooted.stems hname he⟩
      refine Tracks.map (tracks_mapM (fun _ _ v hlog hv e he => (hv e he).mono hlog) hrefer) _
        fun log contents h e he => ?_
      obtain ⟨v, hv, he⟩ := List.mem_flatMap.1 he
      exact h v hv e he
    | template name =>
      cases htemplates : s.templates with
      | none => exact hself (.kept hkey htemplates)
      | some store =>
        cases hexpand : store.expand? name d.2 with
        | none =>
          simp only [hexpand]
          intro m part m' _ hrun
          cases hrun
        | some expansion =>
          simp only [hexpand]
          obtain ⟨t, hfind, rfl⟩ := Option.map_eq_some_iff.1 hexpand
          exact tracks_pure fun log e he => (Makes.expanded hkey htemplates hfind he).stems hd

/-- The entries of what is put together stem from the section. -/
theorem tracks_assemble {step : String → Resolution Section} (hstep : Refers s caller step)
    (content : Section) :
    Tracks s (fun log v => ∀ e ∈ v.entries, Stems s log ⟨caller, content⟩ e)
      (assemble step s.templates content) := by
  refine (tracks_mapM (fun _ _ part hlog hpart e he => (hpart e he).mono hlog) fun d hd =>
    tracks_expandEntry hstep hd).map _ fun log parts h e he => ?_
  obtain ⟨part, hpart, he⟩ := List.mem_flatten.1 (Section.mem_of_mem_fold he)
  exact h part hpart e he

theorem Sourced.record (hm : Sourced s m) (h : Rooted s (m.log ++ [.store r.key]) r.key v) :
    Sourced s ⟨m.cache.insert r.key v, m.log ++ [.store r.key]⟩ := by
  intro key found hfound
  rw [Catalog.get?_insert] at hfound
  split at hfound
  · next hkey =>
    subst hkey
    exact Option.some.inj hfound ▸ h
  · exact (hm key found hfound).mono (List.prefix_append _ _)

/-- Between the store and the question of the same reference the section was put together. -/
theorem settles_of_asked (hlog : (m.asked s.library r).log <+: log)
    (hr : target? s.library r = some content) : Settles (log ++ [.store r.key]) r := by
  obtain ⟨inner, rfl⟩ := hlog
  obtain ⟨document, hdocument, -⟩ := Option.bind_eq_some_iff.1 hr
  refine ⟨m.log, inner, [], ?_⟩
  simp only [Memory.asked, hdocument, Option.isSome_some, List.append_assoc, List.cons_append,
    List.nil_append]

/-- Wherever a reference is resolved, and whether it is remembered or not, its content is rooted. -/
theorem refers_referWithin (s : Sources) (room : Nat) (caller : Option String) (chain : Chain) :
    Refers s caller (referWithin s room caller chain) := by
  induction room using Nat.strongRecOn generalizing caller chain with
  | _ room ih =>
    intro raw m v m' hm hrun
    obtain ⟨r, hparse, ⟨hc, rfl⟩ | ⟨room, content, m₁, rfl, htarget, hput, rfl⟩⟩ :=
      cases_of_referWithin hrun
    · have hlog := List.prefix_append m.log [.fetch r.key true]
      exact ⟨hm.mono rfl hlog, hlog, r, hparse, (hm _ _ hc).mono hlog⟩
    · have hasked : m.log <+: (m.asked s.library r).log := List.prefix_append _ _
      have hm' : Sourced s (m.asked s.library r) := hm.mono rfl hasked
      obtain ⟨hm₁, hlog, hstems⟩ := tracks_assemble
        (ih room (Nat.lt_succ_self room) (some r.document) (chain.extend r.key)) content hm' hput
      have hstore := List.prefix_append m₁.log [.store r.key]
      have hrooted : Rooted s (m₁.log ++ [.store r.key]) r.key v :=
        ⟨r, content, rfl, settles_of_asked hlog htarget, htarget,
          fun e he => (hstems e he).mono hstore⟩
      exact ⟨hm₁.record hrooted, (hasked.trans hlog).trans hstore, r, hparse, hrooted⟩

/-- From a run that started without memory, every entry of a resolved section stems from a section
that the run met. -/
theorem stems_of_resolve (h : resolve s caller chain content ∅ = (.ok v, m)) (he : e ∈ v.entries) :
    Stems s m.log ⟨caller, content⟩ e :=
  (tracks_assemble (refers_referWithin s _ caller chain) content (sourced_empty s) h).2.2 e he

/-! ### What is left to resolve -/

theorem expandEntry_of_kept {step : String → Resolution Section}
    (h : e.1 ≠ Directive.inheritKey) : expandEntry step none e = pure [e] := by
  unfold expandEntry
  cases hkey : Directive.ofKey? e.1 with
  | none => rfl
  | some directive =>
    cases directive with
    | inherit => exact absurd (Directive.ofKey?_eq_inherit_iff.1 hkey) h
    | template name => rfl

/-- Without templates a section that inherits nothing is folded and nothing else is done. -/
theorem assemble_of_kept {step : String → Resolution Section}
    (h : Directive.inheritKey ∉ content.keys) : assemble step none content = pure content.fold := by
  have hentries (es : List Entry) (hes : Directive.inheritKey ∉ es.map Prod.fst) :
      es.mapM (expandEntry step none) = pure (es.map ([·])) := by
    induction es with
    | nil => rfl
    | cons e rest ih =>
      rw [List.map_cons, List.mem_cons, not_or] at hes
      rw [List.mapM_cons, expandEntry_of_kept (Ne.symm hes.1), ih hes.2]
      simp only [pure_bind, List.map_cons]
  rw [assemble, hentries content.entries h, pure_bind, ← List.flatMap_def, List.flatMap_singleton']

theorem exists_fold_of_assemble {step : String → Resolution Section}
    {templates : Option TemplateStore} (h : assemble step templates content m = (.ok v, m')) :
    ∃ t : Section, v = t.fold := by
  obtain ⟨parts, m₁, -, hpure⟩ := run_bind_ok_iff.1 h
  exact ⟨⟨parts.flatten⟩, (run_pure_ok_iff.1 hpure).1.symm⟩

/-- Without templates an entry is made only of itself, and it inherits nothing. -/
theorem Makes.eq_of_none {d : Entry} (h : Makes none d e) :
    e = d ∧ d.1 ≠ Directive.inheritKey := by
  rw [Ne, ← Directive.ofKey?_eq_inherit_iff]
  cases h with
  | plain h => simp [h]
  | kept h _ => simp [h]
  | expanded _ ht => cases ht

/-- With templates a directive is made only by a template. -/
theorem Makes.exists_template {store : TemplateStore} {d : Entry} (h : Makes (some store) d e)
    (he : Directive.ofKey? e.1 ≠ none) :
    ∃ name t, Directive.ofKey? d.1 = some (.template name) ∧ store.find? name d.2 = some t ∧
      e ∈ (t.expand d.2.arguments).entries := by
  cases h with
  | plain h => exact absurd h he
  | kept _ ht => cases ht
  | expanded h ht hfind he =>
    obtain rfl := Option.some.inj ht
    exact ⟨_, _, h, hfind, he⟩

/-- A section that a run resolved without memory to start from is in normal form. No key stands
twice. Without templates nothing is inherited any more, the other directives stood in sections that
the run met, and to resolve the section again gives it back and asks for nothing. With templates
every directive was made by a template in a section that the run met. -/
theorem resolved_in_normal_form {r : Section} (h : resolve s caller chain content ∅ = (.ok r, m)) :
    r.keys.Nodup ∧
      (s.templates = none →
        Directive.inheritKey ∉ r.keys ∧
        (∀ key ∈ r.keys, Directive.ofKey? key ≠ none →
          ∃ site, Meets s.library m.log ⟨caller, content⟩ site ∧ key ∈ site.content.keys) ∧
        ∀ (s' : Sources) (caller' : Option String) (chain' : Chain) (m' : Memory),
          s'.templates = none → resolve s' caller' chain' r m' = (.ok r, m')) ∧
      ∀ store, s.templates = some store →
        ∀ key ∈ r.keys, Directive.ofKey? key ≠ none →
          ∃ site, Meets s.library m.log ⟨caller, content⟩ site ∧ ∃ d ∈ site.content.entries,
            ∃ name t, Directive.ofKey? d.1 = some (.template name) ∧
              store.find? name d.2 = some t ∧ key ∈ (t.expand d.2.arguments).keys := by
  have hstems (key : String) (hkey : key ∈ r.keys) :
      ∃ e, e.1 = key ∧ Stems s m.log ⟨caller, content⟩ e := by
    obtain ⟨e, he, rfl⟩ := List.mem_map.1 hkey
    exact ⟨e, rfl, stems_of_resolve h he⟩
  obtain ⟨t, rfl⟩ := exists_fold_of_assemble h
  refine ⟨t.nodup_keys_fold, fun hnone => ?_, fun store hstore key hkey hdirective => ?_⟩
  · have hmade (key : String) (hkey : key ∈ t.fold.keys) : key ≠ Directive.inheritKey ∧
        ∃ site, Meets s.library m.log ⟨caller, content⟩ site ∧ key ∈ site.content.keys := by
      obtain ⟨e, rfl, site, hmeets, d, hd, hmakes⟩ := hstems key hkey
      obtain ⟨rfl, hne⟩ := (hnone ▸ hmakes).eq_of_none
      exact ⟨hne, site, hmeets, List.mem_map_of_mem hd⟩
    have hinherit : Directive.inheritKey ∉ t.fold.keys := fun hkey => (hmade _ hkey).1 rfl
    refine ⟨hinherit, fun key hkey _ => (hmade key hkey).2, fun s' caller' chain' m' hnone' => ?_⟩
    rw [resolve, hnone', assemble_of_kept hinherit, Section.fold_fold]
    rfl
  · obtain ⟨e, rfl, site, hmeets, d, hd, hmakes⟩ := hstems key hkey
    obtain ⟨name, t', hname, hfind, he⟩ := (hstore ▸ hmakes).exists_template hdirective
    exact ⟨site, hmeets, d, hd, name, t', hname, hfind, List.mem_map_of_mem he⟩

def relay : Template where
  name := "Relay"
  body := ⟨[("@$\x7b0\x7d", .scalar "$\x7b1\x7d")]⟩
  arity := .finite 2

def craneYard : Library :=
  Catalog.ofList [("yard", Keyed.ofList [
    ("Crane", ⟨[("@Relay", .list ["Inherits", "yard:Gate"])]⟩)])]

def cranes : Section := ⟨[("@Inherits", .list ["yard:Crane", "yard:Crane"])]⟩

/-- Without templates the directive of the crane is kept, and with them it makes another one, which
is not followed. -/
theorem resolved_in_normal_form_cranes :
    let templates : TemplateStore := Catalog.ofList [("Relay", relay)]
    let kept : Section := ⟨[("@Relay", .list ["Inherits", "yard:Gate"])]⟩
    let made : Section := ⟨[("@Inherits", .scalar "yard:Gate")]⟩
    let log : List Access := [.fetch "yard:Crane" false, .look "yard" true, .store "yard:Crane",
      .fetch "yard:Crane" true]
    resolve ⟨craneYard, none, 3⟩ none [] cranes ∅ =
        (.ok kept, ⟨Catalog.ofList [("yard:Crane", kept)], log⟩) ∧
      (∀ (s' : Sources) (caller' : Option String) (chain' : Chain) (m' : Memory),
        s'.templates = none → resolve s' caller' chain' kept m' = (.ok kept, m')) ∧
      resolve ⟨craneYard, some templates, 3⟩ none [] cranes ∅ =
        (.ok made, ⟨Catalog.ofList [("yard:Crane", made)], log⟩) ∧
      ∃ site, Meets craneYard log ⟨none, cranes⟩ site ∧ ∃ d ∈ site.content.entries,
        ∃ name t, Directive.ofKey? d.1 = some (.template name) ∧
          templates.find? name d.2 = some t ∧ "@Inherits" ∈ (t.expand d.2.arguments).keys := by
  intro templates kept made log
  have hkept : resolve ⟨craneYard, none, 3⟩ none [] cranes ∅ =
      (.ok kept, ⟨Catalog.ofList [("yard:Crane", kept)], log⟩) := by
    change (_ : Except Fault Section × Memory) = _
    decide +kernel
  have hmade : resolve ⟨craneYard, some templates, 3⟩ none [] cranes ∅ =
      (.ok made, ⟨Catalog.ofList [("yard:Crane", made)], log⟩) := by
    change (_ : Except Fault Section × Memory) = _
    decide +kernel
  obtain ⟨-, hnone, -⟩ := resolved_in_normal_form hkept
  obtain ⟨-, -, hsome⟩ := resolved_in_normal_form hmade
  exact ⟨hkept, (hnone rfl).2.2, hmade, hsome templates rfl "@Inherits" (by decide) (by decide)⟩

end Resolution

end SectionCompiler
