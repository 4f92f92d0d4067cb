import Mathlib.Logic.Relation
import SectionCompiler.Action
import SectionCompiler.Proofs.Storing

/-! A build and its preview. A preview changes nothing and fails as the build would. What it shows
is what the build writes: the build changes the file at the output path and makes the folders above
it that are missing, and nothing else. -/

namespace SectionCompiler

namespace Folder

variable {f : Folder} {node : Node} {name : String} {way w : List String}

/-- What stands at a way, whatever a folder holds. -/
inductive Standing where
  | nothing
  | file (content : Content)
  | folder

def standingOf : Option Node → Standing
  | none => .nothing
  | some (.file content) => .file content
  | some (.folder _) => .folder

def standing (f : Folder) (way : List String) : Standing := standingOf (f.find? way)

/-- A file, or a folder that holds nothing. -/
def IsLeaf (node : Node) : Prop := (∃ content, node = .file content) ∨ node = .folder empty

theorem find?_below_leaf (hnode : IsLeaf node) (hchild : f.child? name = some node)
    (hway : way ≠ []) : f.find? (name :: way) = none := by
  rcases hnode with ⟨content, rfl⟩ | rfl
  · rw [find?, hchild]
    exact if_neg hway
  · rw [find?_cons_of_folder hchild]
    obtain ⟨next, rest, rfl⟩ := List.exists_cons_of_ne_nil hway
    rfl

/-- A leaf that is put where no folder is changes nothing elsewhere. -/
theorem standing_putAt (h : Room f way) (hway : ∀ inside, f.find? way ≠ some (.folder inside))
    (hnode : IsLeaf node) (hne : w ≠ way) : (f.putAt node way).standing w = f.standing w := by
  unfold standing
  induction h generalizing w with
  | last f name =>
    cases w with
    | nil => rfl
    | cons first rest =>
      rw [putAt]
      by_cases hfirst : name = first
      · subst hfirst
        have hrest : rest ≠ [] := fun hnil => hne (by rw [hnil])
        have hput : (f.put name node).child? name = some node := by rw [child?_put, if_pos rfl]
        have hbelow : f.find? (name :: rest) = none := by
          rw [← Option.not_isSome_iff_eq_none, Option.isSome_iff_exists]
          rintro ⟨below, hfind⟩
          obtain ⟨sub, hsub, -⟩ := exists_child?_of_find? hfind hrest
          exact hway sub (find?_singleton f name ▸ hsub)
        rw [find?_below_leaf hnode hput hrest, hbelow]
      · rw [find?, child?_put, if_neg hfirst, find?]
  | @inside f sub name way hsub hroom ih =>
    cases w with
    | nil => rfl
    | cons first rest =>
      rw [putAt_inside hsub hroom.ne_nil]
      by_cases hfirst : name = first
      · subst hfirst
        have hput : (f.put name (.folder (sub.putAt node way))).child? name =
            some (.folder (sub.putAt node way)) := by rw [child?_put, if_pos rfl]
        rw [find?_cons_of_folder hput, find?_cons_of_folder hsub]
        refine ih (fun inside => ?_) fun heq => hne (by rw [heq])
        rw [← find?_cons_of_folder hsub way]
        exact hway inside
      · rw [find?, child?_put, if_neg hfirst, find?]

end Folder

namespace Disk

open Folder (Standing Room)

variable {d d' d'' : Disk} {path : String} {At At' : String → Prop} {way : List String}

/-- At a way where nothing stood there is a folder now, which one of the given paths leads to. -/
def IsMade (At : String → Prop) (d d' : Disk) (way : List String) : Prop :=
  d.root.standing way = .nothing ∧ d'.root.standing way = .folder ∧
    ∃ above p, At above ∧ d'.place above = .ok p ∧ p.way = way

/-- A disk that differs from another in new folders at the given paths only. -/
structure Makes (At : String → Prop) (d d' : Disk) : Prop where
  grows : Grows (fun _ => False) d d'
  changed : ∀ way, d'.root.standing way = d.root.standing way ∨ IsMade At d d' way

theorem Makes.refl (At : String → Prop) (d : Disk) : Makes At d d :=
  ⟨.refl _ d, fun _ => Or.inl rfl⟩

theorem IsMade.mono (hat : ∀ above, At above → At' above) (h : IsMade At d d' way) :
    IsMade At' d d' way := by
  obtain ⟨hbefore, hafter, above, p, habove, hp, hway⟩ := h
  exact ⟨hbefore, hafter, above, p, hat above habove, hp, hway⟩

theorem Makes.mono (hat : ∀ above, At above → At' above) (h : Makes At d d') : Makes At' d d' :=
  ⟨h.grows, fun way => (h.changed way).imp_right (IsMade.mono hat)⟩

/-- A folder that was made is still there when nothing has changed at its way since. -/
theorem IsMade.later {New : List String → Prop} (h : IsMade At d d' way) (hgrows : Grows New d' d'')
    (hsame : d''.root.standing way = d'.root.standing way) : IsMade At d d'' way := by
  obtain ⟨hbefore, hafter, above, p, habove, hp, rfl⟩ := h
  exact ⟨hbefore, hsame.trans hafter, above, _, habove, (hgrows.place hp).2, rfl⟩

theorem Makes.trans (h : Makes At d d') (h' : Makes At d' d'') : Makes At d d'' := by
  refine ⟨h.grows.trans h'.grows, fun way => ?_⟩
  rcases h.changed way with hsame | hmade
  · rcases h'.changed way with hsame' | ⟨hbefore, hafter⟩
    · exact Or.inl (hsame'.trans hsame)
    · exact Or.inr ⟨hsame.symm.trans hbefore, hafter⟩
  · rcases h'.changed way with hsame' | ⟨hbefore, -⟩
    · exact Or.inr (hmade.later h'.grows hsame')
    · exact absurd (hmade.2.1.symm.trans hbefore) nofun

theorem makes_makeFolder (h : d.makeFolder path = .ok d') : Makes (· = path) d d' := by
  obtain ⟨hgrows, -⟩ := grows_makeFolder h
  obtain ⟨p, hp, hnone, rfl⟩ := makeFolder_eq_ok.1 h
  have hno : ∀ inside, d.root.find? p.way ≠ some (.folder inside) := by
    rw [hnone]
    exact fun _ => nofun
  have hroom : Room d.root p.way := room_of_place hp hno
  refine ⟨hgrows, fun way => ?_⟩
  by_cases hway : way = p.way
  · subst hway
    refine Or.inr ⟨?_, ?_, path, _, rfl, (hgrows.place hp).2, rfl⟩
    · rw [Folder.standing, hnone]
      rfl
    · rw [Folder.standing, putAt, Folder.find?_putAt_self hroom]
      rfl
  · exact Or.inl (Folder.standing_putAt hroom hno (Or.inr rfl) hway)

end Disk

namespace Path

/-- From a path to the path itself or to a folder above it. -/
def IsUpward : String → String → Prop :=
  Relation.ReflTransGen fun path parent => parent? path = some parent

/-- From a path to a folder above it: its parent, the parent of that, and so on. -/
def IsAbove : String → String → Prop :=
  Relation.TransGen fun path parent => parent? path = some parent

end Path

namespace Disk

open SectionCompiler.Path (IsUpward IsAbove)

variable {d d' : Disk} {path : String}

/-- Making folders changes a disk by the folder at the path, or by those above it and then by the
folder at the path, if at all. -/
theorem makeFoldersWithin_cases {fuel : Nat} {answer : Except Fault Unit}
    (h : makeFoldersWithin fuel d path = (answer, d')) :
    d' = d ∨ d.makeFolder path = .ok d' ∨ ∃ fewer parent answer' above,
      fuel = fewer + 1 ∧ Path.parent? path = some parent ∧
        makeFoldersWithin fewer d parent = (answer', above) ∧
        (d' = above ∨ above.makeFolder path = .ok d') := by
  rw [makeFoldersWithin.eq_def] at h
  split at h
  · exact Or.inl (Prod.mk.inj h).2.symm
  · split at h
    · next made hmake => exact Or.inr (Or.inl ((Prod.mk.inj h).2 ▸ hmake))
    · split at h
      · next fewer parent hparent =>
        refine Or.inr (Or.inr ⟨fewer, parent, ?_⟩)
        split at h
        · next fault above habove =>
          exact ⟨_, above, rfl, hparent, habove, Or.inl (Prod.mk.inj h).2.symm⟩
        · next above habove =>
          refine ⟨_, above, rfl, hparent, habove, ?_⟩
          split at h
          · next made hmake => exact Or.inr ((Prod.mk.inj h).2 ▸ hmake)
          · split at h
            all_goals exact Or.inl (Prod.mk.inj h).2.symm
      · exact Or.inl (Prod.mk.inj h).2.symm
    · split at h
      all_goals exact Or.inl (Prod.mk.inj h).2.symm

theorem makes_upward (h : d.makeFolder path = .ok d') : Makes (IsUpward path) d d' := by
  refine (makes_makeFolder h).mono ?_
  rintro _ rfl
  exact .refl

/-- Making folders makes no other folders than the one at the path and those above it, also when it
fails. -/
theorem makes_makeFoldersWithin {fuel : Nat} {answer : Except Fault Unit}
    (h : makeFoldersWithin fuel d path = (answer, d')) : Makes (IsUpward path) d d' := by
  induction fuel generalizing d path d' answer with
  | zero =>
    rcases makeFoldersWithin_cases h with rfl | hmake | ⟨_, _, _, _, hfuel, -⟩
    · exact .refl _ _
    · exact makes_upward hmake
    · cases hfuel
  | succ fuel ih =>
    rcases makeFoldersWithin_cases h with
      rfl | hmake | ⟨_, parent, _, above, hfuel, hparent, habove, hlast⟩
    · exact .refl _ _
    · exact makes_upward hmake
    · obtain rfl := Nat.succ.inj hfuel
      have hmakes : Makes (IsUpward path) d above := (ih habove).mono fun _ => .head hparent
      rcases hlast with rfl | hmake
      · exact hmakes
      · exact hmakes.trans (makes_upward hmake)

/-- Writing a file changes nothing but the file. -/
theorem standing_write {text : String} (h : d.write path text = .ok d') {p : Place}
    (hp : d'.place path = .ok p) {way : List String} (hway : p.way ≠ way) :
    d'.root.standing way = d.root.standing way := by
  obtain ⟨-, q, hq, hno, rfl⟩ := write_eq_ok.1 h
  have hroom := room_of_place hq hno
  have hgrows : Grows (· = q.way) d (d.putAt (.file (.text text)) q.way) :=
    ⟨Folder.grows_putAt_file hroom hno _, rfl⟩
  obtain rfl := Except.ok.inj ((hgrows.place hq).2.symm.trans hp)
  exact Folder.standing_putAt hroom hno (Or.inl ⟨_, rfl⟩) hway.symm

end Disk

namespace Output

open Disk (Makes IsMade)
open SectionCompiler.Path (IsAbove)

variable {d d' : Disk} {path text : String}

theorem makes_makeRoom {answer : Except Fault Unit} (h : makeRoom d path = (answer, d')) :
    Makes (IsAbove path) d d' ∧
      ∀ fault, answer = .error fault → Path.parent? path = some fault.path := by
  unfold makeRoom at h
  split at h
  · obtain ⟨rfl, rfl⟩ := Prod.mk.inj h
    exact ⟨.refl _ _, fun _ => nofun⟩
  · next parent hparent =>
    have hmakes : ∀ {answer made}, d.makeFolders parent = (answer, made) →
        Makes (IsAbove path) d made :=
      fun hmade => (Disk.makes_makeFoldersWithin hmade).mono fun _ => .head' hparent
    split at h
    · next made hmade =>
      obtain ⟨rfl, rfl⟩ := Prod.mk.inj h
      exact ⟨hmakes hmade, fun _ => nofun⟩
    · next cause made hmade =>
      obtain ⟨rfl, rfl⟩ := Prod.mk.inj h
      refine ⟨hmakes hmade, fun fault heq => ?_⟩
      obtain rfl := Except.error.inj heq
      exact hparent

/-- A disk on which a text was written to a path: the text is read back, and nothing else has
changed but that folders above the path were made. -/
structure Writes (d d' : Disk) (path text : String) : Prop where
  here : d'.here = d.here
  read : d'.read path = .ok text
  changed : ∀ way, (∀ p, d'.place path = .ok p → p.way ≠ way) →
    d'.root.standing way = d.root.standing way ∨ IsMade (IsAbove path) d d' way

/-- Writing either writes the text, or fails at the path or at its parent and at most makes folders
above the path. -/
theorem write_cases (d : Disk) (path text : String) :
    (∃ d', write d path text = (.ok (), d') ∧ Writes d d' path text) ∨
      ∃ fault d', write d path text = (.error fault, d') ∧
        (fault.path = path ∨ Path.parent? path = some fault.path) ∧ Makes (IsAbove path) d d' := by
  unfold write
  rcases hroom : makeRoom d path with ⟨fault | _, made⟩
  · right
    obtain ⟨hmakes, hparent⟩ := makes_makeRoom hroom
    exact ⟨fault, made, rfl, Or.inr (hparent fault rfl), hmakes⟩
  · obtain ⟨hmakes, -⟩ := makes_makeRoom hroom
    dsimp only
    rcases hwrite : made.write path text with cause | d'
    · exact Or.inr ⟨⟨path, cause⟩, made, rfl, Or.inl rfl, hmakes⟩
    · left
      obtain ⟨p, hplace, hfile, hgrows, -⟩ := Disk.grows_write hwrite
      refine ⟨d', rfl, hgrows.here.trans hmakes.grows.here, ?_, fun way hway => ?_⟩
      · rw [← Disk.node_of_place hplace] at hfile
        rw [Disk.read, Disk.node, hplace]
        simp [bind, Except.bind, hfile, pure, Except.pure]
      · have hsame := Disk.standing_write hwrite hplace (hway p hplace)
        rcases hmakes.changed way with hkept | hmade
        · exact Or.inl (hsame.trans hkept)
        · exact Or.inr (hmade.later hgrows hsame)

end Output

namespace Action

open Disk (Makes)
open SectionCompiler.Path (IsAbove)

variable {e : Environment} {d : Disk} {settings output : Option String} {release strict : Bool}

theorem exists_outputPath_of_prepare {b : Build}
    (h : prepare e d settings output release strict = .ok b) :
    ∃ path, b.outputPath = some path := by
  unfold prepare at h
  simp only [bind_eq_ok, pure_eq_ok] at h
  obtain ⟨_, -, s, -, rfl⟩ := h
  cases output with
  | none => exact ⟨s.outputPath, rfl⟩
  | some path => exact ⟨path, rfl⟩

theorem runBuild_of_compile_error {b : Build} {path : String} {fault : Build.Fault}
    (hpath : b.outputPath = some path) (h : b.compile d = .error fault) (dryRun : Bool) :
    runBuild b d dryRun = (.error (.build fault), d) := by
  unfold runBuild
  cases dryRun with
  | true => simp [h, Except.map, Except.mapError]
  | false => simp [Build.run, hpath, h]

theorem runBuild_preview {b : Build} {text : String} {report : Build.Report}
    (h : b.compile d = .ok (text, report)) : runBuild b d true = (.ok (.preview text), d) := by
  simp [runBuild, h, Except.map, Except.mapError]

/-- A build that compiles writes its text, or fails in writing. -/
theorem runBuild_cases {b : Build} {path text : String} {report : Build.Report}
    (hpath : b.outputPath = some path) (h : b.compile d = .ok (text, report)) :
    (∃ d', runBuild b d false = (.ok (.built report), d') ∧ Output.Writes d d' path text) ∨
      ∃ fault d', runBuild b d false = (.error (.build (.output fault)), d') ∧
        (fault.path = path ∨ Path.parent? path = some fault.path) ∧ Makes (IsAbove path) d d' := by
  simp only [runBuild, Build.run, hpath, h, Bool.false_eq_true, if_false]
  rcases Output.write_cases d path text with ⟨d', hwrite, hwrites⟩ | ⟨fault, d', hwrite, hfault⟩
  · rw [hwrite]
    exact Or.inl ⟨d', rfl, hwrites⟩
  · rw [hwrite]
    exact Or.inr ⟨fault, d', rfl, hfault⟩

/-- A preview changes nothing. It fails as the build does, which then changes nothing either; and
when it shows a text, the build writes that text, or fails in writing it. -/
theorem preview_foretells_build (e : Environment) (d : Disk) (settings output : Option String)
    (release strict : Bool) :
    let preview := perform e d (.build settings output release strict true)
    let build := perform e d (.build settings output release strict false)
    preview.2 = d ∧
      (∀ fault, preview.1 = .error fault → build = (.error fault, d)) ∧
      ∀ outcome, preview.1 = .ok outcome → ∃ b path text,
        prepare e d settings output release strict = .ok b ∧ b.outputPath = some path ∧
          outcome = .preview text ∧
          ((∃ report d', build = (.ok (.built report), d') ∧ Output.Writes d d' path text) ∨
            ∃ fault d', build = (.error (.build (.output fault)), d') ∧
              (fault.path = path ∨ Path.parent? path = some fault.path) ∧
              Makes (IsAbove path) d d') := by
  dsimp only [perform]
  rcases hprepare : prepare e d settings output release strict with fault | b
  · refine ⟨rfl, fun fault' h => ?_, fun _ => nofun⟩
    obtain rfl := Except.error.inj h
    rfl
  · obtain ⟨path, hpath⟩ := exists_outputPath_of_prepare hprepare
    dsimp only
    rcases hcompile : b.compile d with fault | ⟨text, report⟩
    · simp only [runBuild_of_compile_error hpath hcompile]
      refine ⟨trivial, fun fault' h => ?_, fun _ => nofun⟩
      obtain rfl := Except.error.inj h
      rfl
    · rw [runBuild_preview hcompile]
      refine ⟨rfl, fun _ => nofun, fun outcome h => ?_⟩
      obtain rfl := Except.ok.inj h
      refine ⟨b, path, text, rfl, hpath, rfl, (runBuild_cases hpath hcompile).imp_left ?_⟩
      exact fun ⟨d', hbuild, hwrites⟩ => ⟨report, d', hbuild, hwrites⟩

end Action

end SectionCompiler
