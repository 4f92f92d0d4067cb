import Mathlib.Data.List.Nodup
import Mathlib.Data.List.Perm.Subperm
import SectionCompiler.Proofs.Learning
import SectionCompiler.Proofs.Session

/-! How deep resolution nests. The recursion is written once more with the number of nested calls
counted and with nothing else to stop it, and it notes each chain under which the section of a
reference is put together. It has an outcome when one more call may nest than the library has
places, whatever the cap on chains: a chain repeats no key and holds keys of places only, so it is
the look at the chain that ends the recursion. -/

namespace SectionCompiler

namespace Resolution

open Inheritance

variable {s : Sources} {chain : Chain}

theorem Chain.nodup_extend {key : String} (h : chain.Nodup) (hfresh : key ∉ chain) :
    (chain.extend key).Nodup := by
  apply List.nodup_append.2
  refine ⟨h, List.nodup_singleton _, fun k hk k' hk' he => hfresh ?_⟩
  rwa [← List.mem_singleton.1 hk', ← he]

theorem Chain.length_le_places (hnodup : chain.Nodup)
    (hplaces : ∀ key ∈ chain, ∃ r ∈ places s.library, r.key = key) :
    chain.length ≤ (places s.library).length := by
  have hsub : chain ⊆ (places s.library).map Reference.key := by
    intro key hkey
    obtain ⟨r, hr, rfl⟩ := hplaces key hkey
    exact List.mem_map_of_mem hr
  have hlen := (hnodup.subperm hsub).length_le
  rwa [List.length_map] at hlen

/-- What holds of a chain when the section of its last reference is put together. -/
structure Chain.IsSound (s : Sources) (chain : Chain) : Prop where
  nodup : chain.Nodup
  exists_place : ∀ key ∈ chain, ∃ r ∈ places s.library, r.key = key
  length_le : chain.length ≤ min s.maxDepth (places s.library).length

theorem Chain.IsSound.nil (s : Sources) : Chain.IsSound s [] :=
  ⟨List.nodup_nil, fun _ h => absurd h List.not_mem_nil, Nat.zero_le _⟩

theorem Chain.IsSound.extend (h : chain.IsSound s) {r : Reference} (hr : r ∈ places s.library)
    (hfresh : r.key ∉ chain) (hroom : chain.length < s.maxDepth) :
    (chain.extend r.key).IsSound s := by
  have hnodup := Chain.nodup_extend h.nodup hfresh
  have hplaces : ∀ key ∈ chain.extend r.key, ∃ r ∈ places s.library, r.key = key := by
    intro key hkey
    rcases List.mem_append.1 hkey with hkey | hkey
    · exact h.exists_place key hkey
    · exact ⟨r, hr, (List.mem_singleton.1 hkey).symm⟩
  refine ⟨hnodup, hplaces, le_min ?_ (Chain.length_le_places hnodup hplaces)⟩
  rw [Chain.extend, List.length_append, List.length_singleton]
  exact hroom

end Resolution

open Resolution (Fault Chain Memory assemble)
open Inheritance

/-- A step of the counted recursion. It keeps the memory and the chains under which sections have
been put together, and has no outcome when too many calls nest. -/
abbrev Nesting := ExceptT Fault (StateT (Memory × List Chain) Option)

namespace Nesting

variable {α β : Type} {s : Sources}

/-- A step in which nothing nests. -/
def lift (step : Resolution α) : Nesting α :=
  fun (m, chains) => some ((step m).1, ((step m).2, chains))

/-- Notes the chain under which a section is put together. -/
def enter (chain : Chain) : Nesting Unit :=
  fun (m, chains) => some (.ok (), (m, chains ++ [chain]))

def exhausted : Nesting α := fun _ => none

/-- Resolves a reference in the document `caller` with fewer than `calls` calls inside one
another. -/
def refer (s : Sources) (calls : Nat) (caller : Option String) (chain : Chain) (raw : String) :
    Nesting Section :=
  match calls with
  | 0 => exhausted
  | calls + 1 =>
    match Reference.parse raw caller with
    | .error fault => throw (.reference fault)
    | .ok r => do
      match ← lift (Resolution.fetch r.key) with
      | some content => return content
      | none =>
        if r.key ∈ chain then throw (.cycle (chain.extend r.key))
        else if s.maxDepth ≤ chain.length then throw (.tooDeep r.key s.maxDepth)
        else
          let content ← lift (Resolution.seek s r)
          enter (chain.extend r.key)
          let resolved ← assemble (refer s calls (some r.document) (chain.extend r.key)) s.templates
            content
          lift (Resolution.store r.key resolved)
          return resolved

def resolve (s : Sources) (calls : Nat) (caller : Option String) (chain : Chain)
    (content : Section) : Nesting Section :=
  assemble (refer s calls caller chain) s.templates content

/-- The counted step has an outcome, which is that of the resolution step, and each chain that it
notes is good. -/
def Follows (good : Chain → Prop) (step : Resolution α) (x : Nesting α) : Prop :=
  ∀ m chains, ∃ entered, x (m, chains) = some ((step m).1, ((step m).2, chains ++ entered)) ∧
    ∀ chain ∈ entered, good chain

theorem run_bind (x : Nesting α) (f : α → Nesting β) (state : Memory × List Chain) :
    (x >>= f) state = match x state with
      | none => none
      | some (.ok a, state') => f a state'
      | some (.error fault, state') => some (.error fault, state') := by
  change ((x.run >>= fun a => (ExceptT.bindCont f a)) : StateT _ Option _) state = _
  simp only [bind, StateT.bind]
  rcases h : x state with _ | ⟨_ | _, _⟩ <;> simp [ExceptT.run, h] <;> rfl

theorem run_lift_bind (step : Resolution α) (f : α → Nesting β) (m : Memory)
    (chains : List Chain) :
    (lift step >>= f) (m, chains) = match step m with
      | (.ok a, m') => f a (m', chains)
      | (.error fault, m') => some (.error fault, (m', chains)) := by
  rw [run_bind, lift]
  rcases step m with ⟨_ | _, _⟩ <;> rfl

variable {good : Chain → Prop}

theorem follows_pure (a : α) : Follows good (pure a) (pure a) :=
  fun _ chains => ⟨[], by rw [List.append_nil]; rfl, fun _ h => absurd h List.not_mem_nil⟩

theorem follows_throw (fault : Fault) :
    Follows good (throw fault : Resolution α) (throw fault) :=
  fun _ chains => ⟨[], by rw [List.append_nil]; rfl, fun _ h => absurd h List.not_mem_nil⟩

theorem follows_bind {step : Resolution α} {x : Nesting α} {next : α → Resolution β}
    {f : α → Nesting β} (h : Follows good step x) (hf : ∀ a, Follows good (next a) (f a)) :
    Follows good (step >>= next) (x >>= f) := by
  intro m chains
  obtain ⟨entered, hx, hgood⟩ := h m chains
  rw [run_bind, hx, Resolution.run_bind]
  rcases step m with ⟨fault | a, m'⟩
  · exact ⟨entered, rfl, hgood⟩
  · obtain ⟨entered', hx', hgood'⟩ := hf a m' (chains ++ entered)
    refine ⟨entered ++ entered', ?_, ?_⟩
    · rw [← List.append_assoc]
      exact hx'
    · intro chain hchain
      exact (List.mem_append.1 hchain).elim (hgood chain) (hgood' chain)

def following (good : Chain → Prop) : Simulation Resolution Nesting where
  rel := Follows good
  pure_rel := follows_pure
  throw_rel _ := follows_throw _
  bind_rel := follows_bind

variable {calls : Nat} {caller : Option String} {chain : Chain} {raw : String} {r : Reference}
  {m : Memory} {chains : List Chain}

open Resolution (record)

/-- The call goes on to the section that it refers to: the reference is new and has room on the
chain. -/
structure GoesOn (s : Sources) (caller : Option String) (chain : Chain) (raw : String) (m : Memory)
    (r : Reference) : Prop where
  parse : Reference.parse raw caller = .ok r
  miss : m.cache.get? r.key = none
  fresh : r.key ∉ chain
  room : chain.length < s.maxDepth

/-- A call that goes on seeks the section and has it put together one call deeper. -/
theorem refer_of_goesOn (h : GoesOn s caller chain raw m r) :
    refer s (calls + 1) caller chain raw (m, chains) =
      match Direct.seek s.library r with
      | .error fault => some (.error fault, (m.asked s.library r, chains))
      | .ok content =>
        (assemble (refer s calls (some r.document) (chain.extend r.key)) s.templates content
          (m.asked s.library r, chains ++ [chain.extend r.key])).map fun (answer, m', chains') =>
            ((record r (answer, m')).1, ((record r (answer, m')).2, chains')) := by
  rw [refer, h.parse]
  dsimp only
  rw [run_lift_bind, Resolution.fetch]
  simp only [h.miss, Option.isSome_none, if_neg h.fresh, if_neg (Nat.not_le.2 h.room)]
  rw [run_lift_bind, Resolution.seek_apply]
  dsimp only [Memory.asked]
  rw [List.append_assoc, List.singleton_append]
  cases Direct.seek s.library r with
  | error fault => rfl
  | ok content =>
    dsimp only
    rw [run_bind]
    simp only [enter]
    rw [run_bind]
    rcases assemble (refer s calls _ _) s.templates content _ with _ | ⟨_ | _, _, _⟩ <;> rfl

/-- A call that does not go on has its outcome at once. -/
theorem refer_of_not_goesOn (h : ∀ r, ¬ GoesOn s caller chain raw m r) :
    refer s (calls + 1) caller chain raw (m, chains) =
      some ((Resolution.refer s caller chain raw m).1,
        ((Resolution.refer s caller chain raw m).2, chains)) := by
  rw [refer, Resolution.refer]
  cases hparse : Reference.parse raw caller with
  | error fault =>
    rw [Resolution.referWithin_of_error hparse]
    rfl
  | ok r =>
    dsimp only
    rw [run_lift_bind, Resolution.fetch]
    cases hmiss : m.cache.get? r.key with
    | some content =>
      rw [Resolution.referWithin_of_remembered hparse hmiss]
      rfl
    | none =>
      by_cases hfresh : r.key ∈ chain
      · rw [Resolution.referWithin_of_mem_chain hparse hmiss hfresh]
        simp only [if_pos hfresh]
        rfl
      · have hfull : s.maxDepth ≤ chain.length :=
          Nat.not_lt.1 fun hroom => h r ⟨hparse, hmiss, hfresh, hroom⟩
        rw [Nat.sub_eq_zero_of_le hfull, Resolution.referWithin_zero hparse hmiss hfresh]
        simp only [if_neg hfresh, if_pos hfull]
        rfl

/-- A resolution step that goes on takes one place of the room on its chain. -/
theorem resolution_refer_of_goesOn (h : GoesOn s caller chain raw m r) :
    Resolution.refer s caller chain raw m =
      match Direct.seek s.library r with
      | .error fault => (.error fault, m.asked s.library r)
      | .ok content => record r <|
        assemble (Resolution.refer s (some r.document) (chain.extend r.key)) s.templates content
          (m.asked s.library r) := by
  have hroom := h.room
  have hlen : s.maxDepth - chain.length = s.maxDepth - (chain.extend r.key).length + 1 := by
    simp only [Chain.extend, List.length_append, List.length_singleton]
    omega
  rw [Resolution.refer, hlen, Resolution.referWithin_asked h.parse h.miss h.fresh]
  rfl

/-- The counted recursion has an outcome when one more call may nest than there are places that
are not under way, and it notes sound chains only. -/
theorem follows_refer (hcalls : (unvisited s.library chain).length < calls)
    (hchain : chain.IsSound s) (caller : Option String) (raw : String) :
    Follows (Chain.IsSound s) (Resolution.refer s caller chain raw)
      (refer s calls caller chain raw) := by
  induction calls generalizing caller chain raw with
  | zero => exact absurd hcalls (Nat.not_lt_zero _)
  | succ calls ih =>
    intro m chains
    by_cases hgoes : ∃ r, GoesOn s caller chain raw m r
    · obtain ⟨r, h⟩ := hgoes
      rw [refer_of_goesOn h, resolution_refer_of_goesOn h]
      cases hseek : Direct.seek s.library r with
      | error fault =>
        exact ⟨[], by rw [List.append_nil], fun _ hm => absurd hm List.not_mem_nil⟩
      | ok content =>
        have hr : r ∈ places s.library :=
          mem_places_iff.2 ⟨content, Direct.seek_eq_ok_iff.1 hseek⟩
        have hsound := hchain.extend hr h.fresh h.room
        -- the place is under way from here on, so there is one less to nest calls for
        have hless := length_unvisited_extend_lt hr h.fresh
        have hinner : Follows (Chain.IsSound s)
            (assemble (Resolution.refer s (some r.document) (chain.extend r.key)) s.templates
              content)
            (assemble (refer s calls (some r.document) (chain.extend r.key)) s.templates content) := by
          apply (following (Chain.IsSound s)).assemble_rel
          intro raw' _
          exact ih (by omega) hsound (some r.document) raw'
        obtain ⟨entered, hx, hgood⟩ := hinner (m.asked s.library r) (chains ++ [chain.extend r.key])
        refine ⟨chain.extend r.key :: entered, ?_, List.forall_mem_cons.2 ⟨hsound, hgood⟩⟩
        simp only [hx, Option.map_some, List.append_assoc, List.singleton_append]
        rfl
    · rw [refer_of_not_goesOn fun r h => hgoes ⟨r, h⟩]
      exact ⟨[], by rw [List.append_nil], fun _ hm => absurd hm List.not_mem_nil⟩

theorem follows_resolve (hcalls : (unvisited s.library chain).length < calls)
    (hchain : chain.IsSound s) (caller : Option String) (content : Section) :
    Follows (Chain.IsSound s) (Resolution.resolve s caller chain content)
      (resolve s calls caller chain content) := by
  apply (following (Chain.IsSound s)).assemble_rel
  intro raw _
  exact follows_refer hcalls hchain caller raw

/-- Resolution ends by its look at the chain alone. Begun with no reference under way, in any
document and with any memory, the recursion has an outcome as soon as one more call may nest than
the library has places, however long the cap lets chains become, and the outcome is that of the
resolution. Each chain under which a section is then put together repeats no key, holds keys of
places only, and is no longer than the cap and the number of places. -/
theorem ends_by_chain (s : Sources) (caller : Option String) (m : Memory) (more : Nat) :
    let calls := (places s.library).length + 1 + more
    (∀ content, ∃ chains, resolve s calls caller [] content (m, []) =
        some ((Resolution.resolve s caller [] content m).1,
          ((Resolution.resolve s caller [] content m).2, chains)) ∧
      ∀ chain ∈ chains, Chain.IsSound s chain) ∧
    (∀ raw, ∃ chains, refer s calls caller [] raw (m, []) =
        some ((Resolution.refer s caller [] raw m).1,
          ((Resolution.refer s caller [] raw m).2, chains)) ∧
      ∀ chain ∈ chains, Chain.IsSound s chain) := by
  intro calls
  have hcalls : (unvisited s.library []).length < calls := by
    have hle : (unvisited s.library []).length ≤ (places s.library).length :=
      List.length_filter_le _ _
    omega
  refine ⟨fun content => ?_, fun raw => ?_⟩
  · exact follows_resolve hcalls (.nil s) caller content m []
  · exact follows_refer hcalls (.nil s) caller raw m []

/-- The unit is known when the second reference of the tank comes to it, so its section is put
together once. -/
example : (refer ⟨Session.garage, none, 2 ^ 64 - 1⟩ 6 none [] "tank:Scout" (∅, [])).map (·.2.2) =
    some [["tank:Scout"], ["tank:Scout", "tank:Tank"],
      ["tank:Scout", "tank:Tank", "base:Unit"]] := by
  decide +kernel

end Nesting

end SectionCompiler
