import SectionCompiler.Proofs.Matching

/-! Every placeholder of a text is seen, and nothing else. The scans list what stands at each place
of a text where a placeholder occurs, left to right. Filling puts arguments in at the places where
live placeholders occur and copies each character of the text that is in none of them. -/

namespace SectionCompiler.Placeholder

/-- A token stands in a text behind `n` characters. -/
def Occurs (cs : List Char) (n : Nat) (token : List Char) : Prop :=
  ∃ before after, cs = before ++ token ++ after ∧ before.length = n

theorem occurs_zero_iff {cs token : List Char} : Occurs cs 0 token ↔ token <+: cs := by
  constructor
  · rintro ⟨before, after, rfl, hlen⟩
    obtain rfl := List.length_eq_zero_iff.1 hlen
    exact List.prefix_append _ _
  · rintro ⟨after, rfl⟩
    exact ⟨[], after, rfl, rfl⟩

theorem occurs_cons_succ_iff {c : Char} {rest token : List Char} {n : Nat} :
    Occurs (c :: rest) (n + 1) token ↔ Occurs rest n token := by
  constructor
  · rintro ⟨before, after, heq, hlen⟩
    obtain ⟨d, before', rfl⟩ := List.exists_cons_of_length_eq_add_one hlen
    exact ⟨before', after, (List.cons.inj heq).2, Nat.succ.inj hlen⟩
  · rintro ⟨before, after, rfl, rfl⟩
    exact ⟨c :: before, after, rfl, rfl⟩

/-- A token that begins with a character occurs in no text without that character. -/
theorem occurs_append_iff {d : Char} {xs ys token : List Char} {n : Nat} (h : d ∉ xs) :
    Occurs (xs ++ ys) n (d :: token) ↔ ∃ m, n = xs.length + m ∧ Occurs ys m (d :: token) := by
  induction xs generalizing n with
  | nil => simp
  | cons c rest ih =>
    obtain ⟨hc, hrest⟩ := List.ne_and_not_mem_of_not_mem_cons h
    cases n with
    | zero =>
      refine iff_of_false (fun hzero => hc ?_) (by simp; omega)
      exact (List.cons_prefix_cons.1 (occurs_zero_iff.1 hzero)).1
    | succ n =>
      rw [List.cons_append, occurs_cons_succ_iff, ih hrest]
      simp only [List.length_cons, Nat.add_right_comm _ 1, Nat.add_right_cancel_iff]

/-- The list tells what stands at each place of a text where a token occurs, left to right. -/
def Lists {α : Type} (IsToken : α → List Char → Prop) (cs : List Char) (as : List α) : Prop :=
  ∃ found : List (Nat × α), as = found.map Prod.snd ∧ found.Pairwise (fun a b => a.1 < b.1) ∧
    ∀ n a, (n, a) ∈ found ↔ ∃ token, IsToken a token ∧ Occurs cs n token

/-- What is read at the heads of the rests of a text tells the tokens of the text. -/
theorem lists_filterMap_tails {α : Type} {IsToken : α → List Char → Prop}
    {f : List Char → Option α}
    (hf : ∀ cs a, f cs = some a ↔ ∃ token, IsToken a token ∧ token <+: cs) (hnil : f [] = none)
    (cs : List Char) : Lists IsToken cs (cs.tails.filterMap f) := by
  induction cs with
  | nil =>
    refine ⟨[], by simp [hnil], .nil, fun n a => iff_of_false List.not_mem_nil ?_⟩
    rintro ⟨token, htoken, before, after, heq, -⟩
    obtain ⟨hbefore, -⟩ := List.append_eq_nil_iff.1 heq.symm
    obtain ⟨-, rfl⟩ := List.append_eq_nil_iff.1 hbefore
    exact absurd ((hf [] a).2 ⟨[], htoken, List.nil_prefix⟩) (by simp [hnil])
  | cons c rest ih =>
    obtain ⟨found, hlist, hsorted, hfound⟩ := ih
    refine ⟨(f (c :: rest)).toList.map (0, ·) ++ found.map (Prod.map (· + 1) id), ?_, ?_, ?_⟩
    · rw [List.tails_cons, List.filterMap_cons, hlist]
      cases f (c :: rest) <;> simp
    · refine List.pairwise_append.2 ⟨?_, ?_, ?_⟩
      · cases f (c :: rest) <;> simp
      · exact List.pairwise_map.2 (hsorted.imp fun h => Nat.succ_lt_succ h)
      · intro a ha b hb
        obtain ⟨_, -, rfl⟩ := List.mem_map.1 ha
        obtain ⟨_, -, rfl⟩ := List.mem_map.1 hb
        exact Nat.succ_pos _
    · intro n a
      cases n with
      | zero => simp [occurs_zero_iff, hf]
      | succ n => simp [occurs_cons_succ_iff, hfound]

def Range.IsWritten (r : Range) (token : List Char) : Prop := r.IsToken ∧ token = r.text

theorem lists_singles (text : String) : Lists IsSingle text.toList (singles text) := by
  rw [singles, filterMap_index?_pieces]
  exact lists_filterMap_tails (fun _ _ => singleAt?_eq_some_iff) rfl text.toList

theorem lists_ranges (text : String) : Lists Range.IsWritten text.toList (ranges text) := by
  rw [ranges, rangesOf_eq]
  refine lists_filterMap_tails (fun cs r => ?_) rfl text.toList
  simp [rangeAt?_eq_some_iff, Range.IsWritten]

/-! ### Filling -/

/-- A part of a text that is filled: a character that is copied, or a placeholder in whose place an
argument is put. -/
inductive Part where
  | copied (c : Char)
  | put (token : List Char) (arg : String)

namespace Part

def source : Part → List Char
  | copied c => [c]
  | put token _ => token

def outcome : Part → List Char
  | copied c => [c]
  | put _ arg => arg.toList

end Part

/-- The argument is put in for the token behind the first `n` characters of the text. -/
def PutAt (parts : List Part) (n : Nat) (token : List Char) (arg : String) : Prop :=
  ∃ front back, parts = front ++ .put token arg :: back ∧ (front.flatMap Part.source).length = n

/-- The token is the single placeholder of an index below the limit that has the argument. -/
def StandsFor (limit : Nat) (args : List String) (token : List Char) (arg : String) : Prop :=
  ∃ i, IsSingle i token ∧ i < limit ∧ args[i]? = some arg

/-- The text is filled: arguments are put in where placeholders that stand for them occur, and
nowhere else, and all other characters are copied. -/
def Fills (limit : Nat) (args : List String) (cs filled : List Char) : Prop :=
  ∃ parts : List Part, cs = parts.flatMap Part.source ∧ filled = parts.flatMap Part.outcome ∧
    ∀ n token arg, PutAt parts n token arg ↔ StandsFor limit args token arg ∧ Occurs cs n token

theorem not_putAt_nil {n : Nat} {token : List Char} {arg : String} : ¬ PutAt [] n token arg := by
  rintro ⟨front, back, h, -⟩
  exact absurd h (by simp)

theorem putAt_cons_iff {p : Part} {ps : List Part} {n : Nat} {token : List Char} {arg : String} :
    PutAt (p :: ps) n token arg ↔
      (n = 0 ∧ p = .put token arg) ∨ ∃ m, n = p.source.length + m ∧ PutAt ps m token arg := by
  constructor
  · rintro ⟨front, back, heq, rfl⟩
    cases front with
    | nil => exact Or.inl ⟨rfl, (List.cons.inj heq).1⟩
    | cons q front =>
      obtain ⟨rfl, rfl⟩ := List.cons.inj heq
      refine Or.inr ⟨_, ?_, front, back, rfl, rfl⟩
      rw [List.flatMap_cons, List.length_append]
  · rintro (⟨rfl, rfl⟩ | ⟨m, rfl, front, back, rfl, rfl⟩)
    · exact ⟨[], ps, rfl, rfl⟩
    · exact ⟨p :: front, back, rfl, by rw [List.flatMap_cons, List.length_append]⟩

section

variable {limit : Nat} {args : List String} {token : List Char} {arg : String}

theorem StandsFor.exists_digits (h : StandsFor limit args token arg) :
    ∃ digits i, Spells digits i ∧ token = (Piece.single digits).source ∧
      (Piece.single digits).fill limit args = arg.toList := by
  obtain ⟨i, ⟨digits, hspells, rfl⟩, hlimit, harg⟩ := h
  refine ⟨digits, i, hspells, rfl, ?_⟩
  simp [Piece.fill, Piece.index?, (index?_eq_some_iff hspells.isDigit).2 hspells, hlimit, harg]

theorem StandsFor.exists_plain (h : StandsFor limit args token arg) :
    ∃ plain, token = '$' :: plain ∧ '$' ∉ plain := by
  obtain ⟨i, ⟨digits, hspells, rfl⟩, -⟩ := h
  exact ⟨_, rfl, by simpa using dollar_notMem_of_isDigit hspells.isDigit⟩

/-- One placeholder at most begins a text. -/
theorem StandsFor.unique {cs token' : List Char} {arg' : String}
    (h : StandsFor limit args token arg) (h' : StandsFor limit args token' arg')
    (hcs : token <+: cs) (hcs' : token' <+: cs) : token = token' ∧ arg = arg' := by
  obtain ⟨digits, i, hspells, rfl, hfill⟩ := h.exists_digits
  obtain ⟨digits', i', hspells', rfl, hfill'⟩ := h'.exists_digits
  obtain ⟨after, rfl⟩ := hcs
  obtain ⟨after', heq⟩ := hcs'
  have hfound : single? ((Piece.single digits).source ++ after) = some (digits, after) :=
    single?_eq_some_iff.2 ⟨⟨hspells.ne_nil, hspells.isDigit⟩, rfl⟩
  have hfound' : single? ((Piece.single digits).source ++ after) = some (digits', after') :=
    single?_eq_some_iff.2 ⟨⟨hspells'.ne_nil, hspells'.isDigit⟩, heq.symm⟩
  obtain ⟨rfl, -⟩ := Prod.mk.inj (Option.some.inj (hfound.symm.trans hfound'))
  exact ⟨rfl, String.toList_inj.1 (hfill.symm.trans hfill')⟩

/-- In a text that begins with a placeholder another one occurs behind it only. -/
theorem StandsFor.occurs_append_iff {after token' : List Char} {arg' : String} {n : Nat}
    (h : StandsFor limit args token arg) (h' : StandsFor limit args token' arg') :
    Occurs (token ++ after) n token' ↔
      (n = 0 ∧ token = token' ∧ arg = arg') ∨
        ∃ m, n = token.length + m ∧ Occurs after m token' := by
  obtain ⟨plain, hplain, hdollar⟩ := h.exists_plain
  cases n with
  | zero =>
    rw [occurs_zero_iff]
    constructor
    · exact fun hcs => Or.inl ⟨rfl, h.unique h' (List.prefix_append _ _) hcs⟩
    · rintro (⟨-, rfl, -⟩ | ⟨m, hm, -⟩)
      · exact List.prefix_append _ _
      · rw [hplain, List.length_cons] at hm
        omega
  | succ n =>
    obtain ⟨plain', rfl, -⟩ := h'.exists_plain
    rw [hplain, List.cons_append, occurs_cons_succ_iff, Placeholder.occurs_append_iff hdollar]
    simp only [List.length_cons, Nat.succ_ne_zero, false_and, false_or,
      Nat.add_right_comm _ 1, Nat.add_right_cancel_iff]

theorem isLive_iff : IsLive limit args token ↔ ∃ arg, StandsFor limit args token arg := by
  constructor
  · rintro ⟨digits, i, rfl, hdigits, hi, hlimit, hlength⟩
    exact ⟨args[i], i, ⟨digits, (index?_eq_some_iff hdigits).1 hi, rfl⟩, hlimit,
      List.getElem?_eq_getElem hlength⟩
  · rintro ⟨arg, i, ⟨digits, hspells, rfl⟩, hlimit, harg⟩
    exact ⟨digits, i, rfl, hspells.isDigit, (index?_eq_some_iff hspells.isDigit).2 hspells,
      hlimit, (List.getElem?_eq_some_iff.1 harg).1⟩

theorem fills_nil (limit : Nat) (args : List String) : Fills limit args [] [] := by
  refine ⟨[], rfl, rfl, fun n token arg => iff_of_false not_putAt_nil ?_⟩
  rintro ⟨hstands, before, after, heq, -⟩
  obtain ⟨plain, rfl, -⟩ := hstands.exists_plain
  exact absurd heq (by simp)

theorem Fills.put {after filled : List Char} (h : Fills limit args after filled)
    (hstands : StandsFor limit args token arg) :
    Fills limit args (token ++ after) (arg.toList ++ filled) := by
  obtain ⟨parts, rfl, rfl, hput⟩ := h
  refine ⟨.put token arg :: parts, rfl, rfl, fun n token' arg' => ?_⟩
  simp only [putAt_cons_iff, hput, Part.source]
  constructor
  · rintro (⟨rfl, hpart⟩ | ⟨m, rfl, hstands', hm⟩)
    · obtain ⟨rfl, rfl⟩ := Part.put.inj hpart
      exact ⟨hstands, (hstands.occurs_append_iff hstands).2 (Or.inl ⟨rfl, rfl, rfl⟩)⟩
    · exact ⟨hstands', (hstands.occurs_append_iff hstands').2 (Or.inr ⟨m, rfl, hm⟩)⟩
  · rintro ⟨hstands', hoccurs⟩
    rcases (hstands.occurs_append_iff hstands').1 hoccurs with ⟨rfl, rfl, rfl⟩ | ⟨m, rfl, hm⟩
    · exact Or.inl ⟨rfl, rfl⟩
    · exact Or.inr ⟨m, rfl, hstands', hm⟩

theorem Fills.copied {c : Char} {rest filled : List Char} (h : Fills limit args rest filled)
    (hfresh : Fresh limit args (c :: rest)) : Fills limit args (c :: rest) (c :: filled) := by
  obtain ⟨parts, hsource, rfl, hput⟩ := h
  refine ⟨.copied c :: parts, congrArg (c :: ·) hsource, rfl, fun n token arg => ?_⟩
  simp only [putAt_cons_iff, hput, Part.source, List.length_singleton, reduceCtorEq, and_false,
    false_or]
  constructor
  · rintro ⟨m, rfl, hstands, hm⟩
    rw [Nat.add_comm]
    exact ⟨hstands, occurs_cons_succ_iff.2 hm⟩
  · rintro ⟨hstands, hoccurs⟩
    cases n with
    | zero =>
      obtain ⟨after, heq⟩ := occurs_zero_iff.1 hoccurs
      exact absurd heq.symm (hfresh token after (isLive_iff.2 ⟨arg, hstands⟩))
    | succ n => exact ⟨n, Nat.add_comm n 1, hstands, occurs_cons_succ_iff.1 hoccurs⟩

theorem fills_fillChars (limit : Nat) (args : List String) (cs : List Char) :
    Fills limit args cs (fillChars limit args cs) := by
  induction hn : cs.length using Nat.strongRecOn generalizing cs with
  | _ n ih =>
    subst hn
    by_cases hbegin : ∃ token arg, StandsFor limit args token arg ∧ token <+: cs
    · obtain ⟨token, arg, hstands, after, rfl⟩ := hbegin
      obtain ⟨digits, i, hspells, rfl, hfill⟩ := hstands.exists_digits
      have hlen : after.length < ((Piece.single digits).source ++ after).length := by
        rw [List.length_append]
        exact Nat.lt_add_of_pos_left (Nat.succ_pos _)
      rw [fillChars_single hspells.ne_nil hspells.isDigit, hfill]
      exact (ih _ hlen after rfl).put hstands
    · cases cs with
      | nil =>
        rw [fillChars_nil]
        exact fills_nil limit args
      | cons c rest =>
        have hfresh : Fresh limit args (c :: rest) := by
          intro token after hlive heq
          obtain ⟨arg, hstands⟩ := isLive_iff.1 hlive
          exact hbegin ⟨token, arg, hstands, after, heq.symm⟩
        rw [fillChars_cons hfresh]
        exact (ih _ (Nat.lt_succ_self _) rest rfl).copied hfresh

end

/-- Whatever the class of digits is that placeholders are searched for with, the singles and the
ranges of a text are those that occur in it, left to right, and filling puts arguments in for the
singles that stand for one and leaves all else as it is. -/
theorem placeholders_seen (D : DigitClass) (text : String) :
    (D.singles text = singles text ∧ Lists IsSingle text.toList (singles text)) ∧
    (D.ranges text = ranges text ∧ Lists Range.IsWritten text.toList (ranges text)) ∧
    ∀ limit args, D.fill limit args text = fill limit args text ∧
      Fills limit args text.toList (fill limit args text).toList := by
  refine ⟨⟨DigitClass.singles_eq text, lists_singles text⟩,
    ⟨DigitClass.ranges_eq text, lists_ranges text⟩, fun limit args => ?_⟩
  rw [toList_fill]
  exact ⟨DigitClass.fill_eq limit args text, fills_fillChars limit args text.toList⟩

/-- What is left open at the head does not hide the placeholder behind it, and a number that is
too great and a digit of another script make none. -/
example : singles "$\x7b$\x7b0\x7d$\x7b18446744073709551616\x7d$\x7b\u0663\x7d" = [0] := by
  decide +kernel

end SectionCompiler.Placeholder
