import SectionCompiler.Proofs.Inheritance

/-! Resolution without memory. It follows every reference anew and is otherwise the recursion of
`Resolution`: a reference under way is a cycle, then the length of the chain is checked, then the
section is sought and put together. The greatest length of a chain is part of the environment and
may be lacking; the recursion ends all the same, because a chain holds no place twice. -/

namespace SectionCompiler

/-- A step without memory. The environment is the greatest length of a chain, if there is one. -/
abbrev Direct := ReaderT (Option Nat) (Except Resolution.Fault)

namespace Direct

open Resolution (Fault Chain assemble)
open Inheritance

/-- How a section is put together, when the references in it can be followed. -/
abbrev Assembly := (String → Direct Section) → Section → Direct Section

def read (raw : String) (caller : Option String) : Except Fault Reference :=
  (Reference.parse raw caller).mapError .reference

def seek (l : Library) (r : Reference) : Except Fault Section :=
  match l.get? r.document with
  | none => .error (.unknownDocument r.document)
  | some document =>
    match document.get? r.heading with
    | none => .error (.unknownSection r.document r.heading)
    | some content => .ok content

theorem seek_eq_ok_iff {l : Library} {r : Reference} {content : Section} :
    seek l r = .ok content ↔ target? l r = some content := by
  unfold seek target?
  cases l.get? r.document with
  | none => simp
  | some document => cases h : document.get? r.heading <;> simp [h]

/-- Follows a reference while the references of `chain` are under way. -/
def follow (l : Library) (put : Assembly) (chain : Chain) (r : Reference) : Direct Section :=
  if _fresh : r.key ∈ chain then throw (.cycle (chain.extend r.key))
  else fun cap =>
    match cap.filter (· ≤ chain.length) with
    | some limit => .error (.tooDeep r.key limit)
    | none =>
      match _found : seek l r with
      | .error fault => .error fault
      | .ok content =>
        put (fun raw => do follow l put (chain.extend r.key) (← read raw (some r.document)))
          content cap
termination_by (unvisited l chain).length
decreasing_by
  exact length_unvisited_extend_lt (mem_places_iff.2 ⟨content, seek_eq_ok_iff.1 _found⟩) _fresh

def followRaw (l : Library) (put : Assembly) (caller : Option String) (chain : Chain)
    (raw : String) : Direct Section := do
  follow l put chain (← read raw caller)

theorem follow_apply (l : Library) (put : Assembly) (chain : Chain) (r : Reference)
    (cap : Option Nat) :
    follow l put chain r cap =
      if r.key ∈ chain then .error (.cycle (chain.extend r.key))
      else match cap.filter (· ≤ chain.length) with
      | some limit => .error (.tooDeep r.key limit)
      | none =>
        match seek l r with
        | .error fault => .error fault
        | .ok content =>
          put (followRaw l put (some r.document) (chain.extend r.key)) content cap := by
  rw [follow]
  split
  · rfl
  · dsimp only
    split
    · rfl
    · split
      · next h => simp only [h]
      · next h =>
        simp only [h]
        rfl

theorem follow_of_fresh {l : Library} {put : Assembly} {chain : Chain} {r : Reference}
    {cap : Option Nat} (hfresh : r.key ∉ chain) (hroom : cap.filter (· ≤ chain.length) = none) :
    follow l put chain r cap = seek l r >>= fun content =>
      put (followRaw l put (some r.document) (chain.extend r.key)) content cap := by
  rw [follow_apply, if_neg hfresh, hroom]
  cases seek l r <;> rfl

theorem followRaw_apply (l : Library) (put : Assembly) (caller : Option String) (chain : Chain)
    (raw : String) (cap : Option Nat) :
    followRaw l put caller chain raw cap =
      match read raw caller with
      | .error fault => .error fault
      | .ok r => follow l put chain r cap := by
  cases h : read raw caller <;> simp [followRaw, h] <;> rfl

/-- Puts a section together as `Resolution` does. -/
def folding (templates : Option TemplateStore) : Assembly :=
  fun refer content => assemble refer templates content

def refer (s : Sources) (caller : Option String) (chain : Chain) (raw : String) : Direct Section :=
  followRaw s.library (folding s.templates) caller chain raw

def resolve (s : Sources) (caller : Option String) (chain : Chain) (content : Section) :
    Direct Section :=
  folding s.templates (refer s caller chain) content

def compileDocument (s : Sources) (name : String) (cap : Option Nat) :
    Except Compilation.Fault Document :=
  match s.library.get? name with
  | none => .error (.unknownDocument name)
  | some document =>
    ((Compilation.resolveAll (resolve s (some name) []) document).run cap).mapError (.within name)

end Direct

end SectionCompiler
