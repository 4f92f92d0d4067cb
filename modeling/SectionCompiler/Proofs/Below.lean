import SectionCompiler.Proofs.Settled

/-! Answers that say less. A weak fault says less than any answer, and sequencing keeps that order.
With the depth fault as the weak one, a resolution with a cap says less than one without; with all
faults weak, a reference that was resolved once is resolved alike under every chain that leads to
it. -/

namespace SectionCompiler

namespace Resolution

def Fault.isTooDeep : Fault → Bool
  | .tooDeep .. => true
  | _ => false

variable {α β : Type}

/-- The answer `x` is `y`, or a weak fault in its place. -/
def Below (weak : Fault → Bool) (x y : Except Fault α) : Prop :=
  x = y ∨ ∃ fault, weak fault ∧ x = .error fault

namespace Below

variable {weak : Fault → Bool} {x y z : Except Fault α} {f g : α → Except Fault β}

theorem refl (x : Except Fault α) : Below weak x x := Or.inl rfl

theorem of_weak {fault : Fault} (h : weak fault) (y : Except Fault α) :
    Below weak (.error fault) y :=
  Or.inr ⟨fault, h, rfl⟩

theorem bind (h : Below weak x y) (hf : ∀ a, Below weak (f a) (g a)) :
    Below weak (x >>= f) (y >>= g) := by
  rcases h with rfl | ⟨fault, hw, rfl⟩
  · cases x with
    | error fault => exact refl _
    | ok a => exact hf a
  · exact of_weak hw _

theorem eq_ok {a : α} (h : Below weak x y) (hx : x = .ok a) : y = .ok a := by
  rcases h with rfl | ⟨fault, -, rfl⟩
  · exact hx
  · exact absurd hx (by simp)

/-- With no fault weak the order is equality. -/
theorem eq_of_none_weak (h : Below (fun _ => false) x y) : x = y := by
  rcases h with rfl | ⟨fault, hw, -⟩
  · rfl
  · exact absurd hw (by simp)

end Below

end Resolution

namespace Direct

open Resolution (Fault Chain Below)
open Inheritance Relation

/-- The answers in one environment are below those in another. -/
def weakening (weak : Fault → Bool) (cap cap' : Option Nat) : Simulation Direct Direct where
  rel x y := Below weak (x.run cap) (y.run cap')
  pure_rel _ := Below.refl _
  throw_rel _ := Below.refl _
  bind_rel h hf := Below.bind h hf

variable {l : Library} {templates : Option TemplateStore}

theorem followRaw_below {l' : Library} {put put' : Assembly} {weak : Fault → Bool}
    {cap cap' : Option Nat} {caller : Option String} {chain chain' : Chain} {raw : String}
    (h : ∀ t, Reference.parse raw caller = .ok t →
      Below weak (follow l put chain t cap) (follow l' put' chain' t cap')) :
    Below weak (followRaw l put caller chain raw cap)
      (followRaw l' put' caller chain' raw cap') := by
  rw [followRaw_apply, followRaw_apply, read]
  cases hp : Reference.parse raw caller with
  | error fault => exact Below.refl _
  | ok t => exact h t hp

/-- A cap takes nothing but depth faults away. -/
theorem follow_below_uncapped (limit : Nat) (chain : Chain) (r : Reference) :
    Below Fault.isTooDeep (follow l (folding templates) chain r (some limit))
      (follow l (folding templates) chain r none) := by
  induction chain using chain_induction l generalizing r with
  | step chain ih =>
    rw [follow_apply, follow_apply]
    split
    · exact Below.refl _
    · next hfresh =>
      split
      · exact Below.of_weak rfl _
      · cases hs : seek l r with
        | error fault => exact Below.refl _
        | ok content =>
          have hr := mem_places_iff.2 ⟨content, seek_eq_ok_iff.1 hs⟩
          refine (weakening Fault.isTooDeep (some limit) none).assemble_rel fun raw _ => ?_
          exact followRaw_below fun t _ => ih r hr hfresh t

/-- Under another chain a resolved reference stands for the same, unless it reaches a reference
that is under way there. -/
theorem follow_of_avoids {chain chain' : Chain} {r : Reference} {v : Section}
    (h : follow l (folding templates) chain r none = .ok v)
    (hc : ∀ t, ReflTransGen (Inherits l) r t → t.key ∉ chain') :
    follow l (folding templates) chain' r none = .ok v := by
  induction chain using chain_induction l generalizing r v chain' with
  | step chain ih =>
    obtain ⟨hfresh, -, content, hcontent, hput⟩ := follow_eq_ok_iff.1 h
    have hr := mem_places_iff.2 ⟨content, hcontent⟩
    refine follow_eq_ok_iff.2 ⟨hc r .refl, rfl, content, hcontent, ?_⟩
    have hbelow : Below (fun _ => true)
        (folding templates (followRaw l (folding templates) (some r.document)
          (chain.extend r.key)) content none)
        (folding templates (followRaw l (folding templates) (some r.document)
          (chain'.extend r.key)) content none) := by
      refine (weakening (fun _ => true) none none).assemble_rel fun raw hraw => ?_
      refine followRaw_below fun t ht => ?_
      have hs : Inherits l r t := ⟨content, hcontent, raw, hraw, ht⟩
      cases hw : follow l (folding templates) (chain.extend r.key) t none with
      | error fault => exact Below.of_weak rfl _
      | ok w =>
        refine Or.inl (ih r hr hfresh hw fun u hu hm => ?_).symm
        rcases List.mem_append.1 hm with hm | hm
        · exact hc u (.head hs hu) hm
        · exact key_not_mem_of_reaches hw hu (List.mem_append_right _ hm)
    exact hbelow.eq_ok hput

/-- The chain leads to a reference: each key on it is that of a plainly named reference from which
inheritance goes on to it. -/
def Trail (l : Library) (chain : Chain) (t : Reference) : Prop :=
  ∀ key ∈ chain, ∃ r : Reference, r.key = key ∧ IsPlain r.document ∧ TransGen (Inherits l) r t

theorem trail_nil (t : Reference) : Trail l [] t := fun _ h => absurd h List.not_mem_nil

theorem trail_extend {chain : Chain} {r t : Reference} (hr : IsPlain r.document)
    (h : Trail l chain r) (hs : Inherits l r t) : Trail l (chain.extend r.key) t := by
  intro key hk
  rcases List.mem_append.1 hk with hk | hk
  · obtain ⟨u, hu, hp, hreach⟩ := h key hk
    exact ⟨u, hu, hp, hreach.tail hs⟩
  · exact ⟨r, (List.mem_singleton.1 hk).symm, hr, .single hs⟩

/-- Under a chain that leads to it a resolved reference stands for the same. -/
theorem follow_of_trail {chain chain' : Chain} {r : Reference} {v : Section}
    (h : follow l (folding templates) chain r none = .ok v) (hr : IsPlain r.document)
    (ht : Trail l chain' r) : follow l (folding templates) chain' r none = .ok v := by
  refine follow_of_avoids h fun t hreach hm => ?_
  obtain ⟨p, hkey, hp, hlead⟩ := ht t.key hm
  -- the reference under way would be reached again, so that `r` lies on a cycle
  obtain rfl := Reference.eq_of_key_eq hp (isPlain_of_reaches hr hreach) hkey
  exact not_cyclic_of_follow h (TransGen.trans_right hreach hlead)

end Direct

end SectionCompiler
