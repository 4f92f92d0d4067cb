/-! Finding one text in another: the first place where it stands, cutting there, and putting
another text in its place. -/

namespace SectionCompiler.Text

/-- Cuts a text at the first place where a character stands, which is in neither part. -/
def cutAt (mark : Char) : List Char → Option (List Char × List Char)
  | [] => none
  | c :: rest =>
    if c = mark then some ([], rest)
    else (cutAt mark rest).map fun (before, after) => (c :: before, after)

theorem length_of_cutAt {mark : Char} {cs before after : List Char}
    (h : cutAt mark cs = some (before, after)) : after.length < cs.length := by
  induction cs generalizing before with
  | nil => simp [cutAt] at h
  | cons c rest ih =>
    simp only [cutAt] at h
    split at h
    · simp only [Option.some.injEq, Prod.mk.injEq] at h
      simp [h.2]
    · obtain ⟨⟨b, a⟩, hr, he⟩ := Option.map_eq_some_iff.1 h
      simp only [Prod.mk.injEq] at he
      rw [he.2] at hr
      exact Nat.lt_succ_of_lt (ih hr)

/-- Cuts a text around the first place where `needle` stands. -/
def cutAround (needle : List Char) : List Char → Option (List Char × List Char)
  | [] => if needle.isEmpty then some ([], []) else none
  | c :: rest =>
    match needle.isPrefixOf? (c :: rest) with
    | some after => some ([], after)
    | none => (cutAround needle rest).map fun (before, after) => (c :: before, after)

def occursIn (needle text : List Char) : Bool := (cutAround needle text).isSome

/-- Puts `new` where `needle` first stands; a text without it stays as it is. -/
def replaceFirst (needle new text : List Char) : List Char :=
  match cutAround needle text with
  | some (before, after) => before ++ new ++ after
  | none => text

def dropSuffix? (tail text : List Char) : Option (List Char) :=
  (tail.reverse.isPrefixOf? text.reverse).map List.reverse

end SectionCompiler.Text
