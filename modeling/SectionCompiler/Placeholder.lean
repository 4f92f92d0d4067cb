import SectionCompiler.Value
/-! Placeholders of a template text. `${N}` stands for one argument, `${N...M}` and `${N...}`
stand for a range of them. Any other text with a dollar sign is ordinary text, and so is a
placeholder with a number of `2 ^ 64` or more. -/

namespace SectionCompiler.Placeholder

def indexBound : Nat := Nat.pow 2 64

def number (digits : List Char) : Nat :=
  digits.foldl (fun n d => n * 10 + (d.toNat - '0'.toNat)) 0

def index? (digits : List Char) : Option Nat :=
  if digits ≠ [] ∧ number digits < indexBound then some (number digits) else none

/-- A range of arguments as it is written. A range without an end is open. -/
structure Range where
  text : List Char
  first : Nat
  last : Option Nat
  deriving DecidableEq, Repr

namespace Range

/-- The first and last index that the range covers among `count` arguments, if there is one. -/
def bounded? (r : Range) (count : Nat) : Option (Nat × Nat) :=
  if count = 0 then none
  else
    let last := match r.last with
      | some last => min last (count - 1)
      | none => count - 1
    if r.first ≤ last then some (r.first, last) else none

/-- The arguments that the range stands for. Outside the arguments it stands for nothing. -/
def slice? (r : Range) (args : List String) : Option (List String) :=
  (r.bounded? args.length).map fun (first, last) => (args.drop first).take (last + 1 - first)

end Range

/-- The digits of a single placeholder at the head of a text, and the text after it. -/
def single? : List Char → Option (List Char × List Char)
  | '$' :: '\x7b' :: rest =>
    match rest.dropWhile Char.isDigit with
    | '}' :: after =>
      if rest.takeWhile Char.isDigit = [] then none else some (rest.takeWhile Char.isDigit, after)
    | _ => none
  | _ => none

/-- The two runs of digits of a range at the head of a text, and the text after it. -/
def range? : List Char → Option ((List Char × List Char) × List Char)
  | '$' :: '\x7b' :: rest =>
    match rest.dropWhile Char.isDigit with
    | '.' :: '.' :: '.' :: rest' =>
      match rest'.dropWhile Char.isDigit with
      | '}' :: after =>
        if rest.takeWhile Char.isDigit = [] then none
        else some ((rest.takeWhile Char.isDigit, rest'.takeWhile Char.isDigit), after)
      | _ => none
    | _ => none
  | _ => none

theorem length_dropWhile_le (p : Char → Bool) (cs : List Char) :
    (cs.dropWhile p).length ≤ cs.length := List.IsSuffix.length_le (List.dropWhile_suffix p)

theorem length_of_single? {cs digits after : List Char} (h : single? cs = some (digits, after)) :
    after.length < cs.length := by
  unfold single? at h
  split at h
  · next rest =>
    have hle := length_dropWhile_le Char.isDigit rest
    split at h
    · next a heq =>
      split at h
      · simp at h
      · simp only [Option.some.injEq, Prod.mk.injEq] at h
        rw [heq] at hle
        simp only [List.length_cons] at hle ⊢
        rw [← h.2]
        omega
    · simp at h
  · simp at h

theorem length_of_range? {cs after : List Char} {digits : List Char × List Char}
    (h : range? cs = some (digits, after)) : after.length < cs.length := by
  unfold range? at h
  split at h
  · next rest =>
    have hle := length_dropWhile_le Char.isDigit rest
    split at h
    · next rest' heq =>
      have hle' := length_dropWhile_le Char.isDigit rest'
      split at h
      · next a heq' =>
        split at h
        · simp at h
        · simp only [Option.some.injEq, Prod.mk.injEq] at h
          rw [heq] at hle
          rw [heq'] at hle'
          simp only [List.length_cons] at hle hle' ⊢
          rw [← h.2]
          omega
      · simp at h
    · simp at h
  · simp at h

/-- A part of a text: one ordinary character, or the digits of a single placeholder. -/
inductive Piece where
  | char (c : Char)
  | single (digits : List Char)
  deriving DecidableEq, Repr

namespace Piece

def source : Piece → List Char
  | char c => [c]
  | single digits => '$' :: '\x7b' :: (digits ++ ['}'])

def index? : Piece → Option Nat
  | char _ => none
  | single digits => Placeholder.index? digits

end Piece

def pieces (cs : List Char) : List Piece :=
  match _h : single? cs with
  | some (digits, after) => .single digits :: pieces after
  | none =>
    match cs with
    | [] => []
    | c :: rest => .char c :: pieces rest
termination_by cs.length
decreasing_by
  · exact length_of_single? _h
  · simp

def rangeOf? (digits : List Char × List Char) : Option Range := do
  let first ← index? digits.1
  let text := '$' :: '\x7b' :: (digits.1 ++ '.' :: '.' :: '.' :: (digits.2 ++ ['}']))
  if digits.2 = [] then return ⟨text, first, none⟩
  else return ⟨text, first, some (← index? digits.2)⟩

def rangesOf (cs : List Char) : List Range :=
  match _h : range? cs with
  | some (digits, after) => (rangeOf? digits).toList ++ rangesOf after
  | none =>
    match cs with
    | [] => []
    | _ :: rest => rangesOf rest
termination_by cs.length
decreasing_by
  · exact length_of_range? _h
  · simp

def singles (text : String) : List Nat := (pieces text.toList).filterMap Piece.index?

def ranges (text : String) : List Range := rangesOf text.toList

def firstRange? (text : String) : Option Range := (ranges text).head?

def Piece.fill (limit : Nat) (args : List String) (p : Piece) : List Char :=
  match p.index? with
  | some i =>
    if i < limit then
      match args[i]? with
      | some arg => arg.toList
      | none => p.source
    else p.source
  | none => p.source

/-- Puts the arguments below `limit` in for their single placeholders, in one pass: the text of
an argument is not searched again. -/
def fill (limit : Nat) (args : List String) (text : String) : String :=
  String.ofList ((pieces text.toList).flatMap (Piece.fill limit args))

end SectionCompiler.Placeholder
