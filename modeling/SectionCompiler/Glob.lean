import SectionCompiler.Text.Search
/-! Wildcard patterns for names with slashes. A question mark or a class in brackets stands for
one character, a star for any run of characters, and none of them for a slash; two stars stand for
any run of whole segments. The letter case of ASCII does not count. -/

namespace SectionCompiler

namespace Glob

inductive Range where
  | single (c : Char)
  | range (first last : Char)
  deriving DecidableEq, Repr

/-- Whether two characters differ in nothing but the letter case of ASCII. -/
def sameLetter (c d : Char) : Bool := c.toLower = d.toLower

/-- Whether a character is in a part of a class. Between two letters the case does not count. -/
def Range.has (c : Char) : Range → Bool
  | single d => sameLetter c d
  | range first last =>
    (first ≤ c && c ≤ last) ||
      (first.isAlpha && last.isAlpha && first.toLower ≤ c.toLower && c.toLower ≤ last.toLower)

inductive Token where
  | char (c : Char)
  | anyChar
  | within (ranges : List Range)
  | except (ranges : List Range)
  | anyRun
  | anySegments
  deriving DecidableEq, Repr

inductive Cause where
  | threeStars
  | notWholeSegment
  | badClass
  deriving DecidableEq, Repr

structure Fault where
  position : Nat
  cause : Cause
  deriving DecidableEq, Repr

def Cause.message : Cause → String
  | threeStars => "wildcards are either regular `*` or recursive `**`"
  | notWholeSegment => "recursive wildcards must form a single path component"
  | badClass => "invalid range pattern"

def Fault.message (f : Fault) : String :=
  s!"Pattern syntax error near position {f.position}: {f.cause.message}"

def rangesOf : List Char → List Range
  | [] => []
  | a :: '-' :: b :: rest => .range a b :: rangesOf rest
  | a :: rest => .single a :: rangesOf rest

/-- Reads a class after its opening marks. The first character is in the class, whatever it is. -/
def class? (cs : List Char) : Option (List Range × List Char) :=
  match cs with
  | [] => none
  | c :: rest => (Text.cutAt ']' rest).map fun (more, after) => (rangesOf (c :: more), after)

theorem length_of_class? {cs after : List Char} {ranges : List Range}
    (h : class? cs = some (ranges, after)) : after.length < cs.length := by
  cases cs with
  | nil => simp [class?] at h
  | cons c rest =>
    obtain ⟨⟨b, a⟩, hr, he⟩ := Option.map_eq_some_iff.1 h
    simp only [Prod.mk.injEq] at he
    rw [he.2] at hr
    exact Nat.lt_succ_of_lt (Text.length_of_cutAt hr)

/-- Reads the tokens of a pattern from a position on, after the character `before`. -/
def tokensFrom (position : Nat) (before : Option Char) (cs : List Char) :
    Except Fault (List Token) :=
  match cs with
  | [] => .ok []
  | '?' :: rest => (tokensFrom (position + 1) (some '?') rest).map (.anyChar :: ·)
  | '*' :: '*' :: '*' :: _ => .error ⟨position + 2, .threeStars⟩
  | '*' :: '*' :: rest =>
    if before.all (· = '/') then
      match rest with
      | [] => .ok [.anySegments]
      | '/' :: rest => (tokensFrom (position + 3) (some '/') rest).map (.anySegments :: ·)
      | _ => .error ⟨position + 2, .notWholeSegment⟩
    else .error ⟨position - 1, .notWholeSegment⟩
  | '*' :: rest => (tokensFrom (position + 1) (some '*') rest).map (.anyRun :: ·)
  | '[' :: '!' :: rest =>
    match _h : class? rest with
    | some (ranges, after) =>
      (tokensFrom (position + (cs.length - after.length)) (some ']') after).map
        (.except ranges :: ·)
    | none => .error ⟨position, .badClass⟩
  | '[' :: rest =>
    match _h : class? rest with
    | some (ranges, after) =>
      (tokensFrom (position + (cs.length - after.length)) (some ']') after).map
        (.within ranges :: ·)
    | none => .error ⟨position, .badClass⟩
  | c :: rest => (tokensFrom (position + 1) (some c) rest).map (.char c :: ·)
termination_by cs.length
decreasing_by
  all_goals simp only [List.length_cons]
  all_goals first
    | omega
    | (have hlt := length_of_class? _h; omega)

end Glob

structure Glob where
  tokens : List Glob.Token
  deriving DecidableEq, Repr

namespace Glob

def parse (pattern : String) : Except Fault Glob :=
  (tokensFrom 0 none pattern.toList).map Glob.mk

/-- Whether a text holds a character that has a meaning in patterns. -/
def isPattern (text : String) : Bool :=
  text.toList.any fun c => c = '*' || c = '?' || c = '['

/-- Whether a predicate holds of what follows some slash. -/
def afterSlash (p : List Char → Bool) : List Char → Bool
  | [] => false
  | c :: rest => (c = '/' && p rest) || afterSlash p rest

/-- Whether a predicate holds of what follows a run of characters that are no slash. -/
def afterRun (p : List Char → Bool) : List Char → Bool
  | [] => p []
  | c :: rest => p (c :: rest) || (c ≠ '/' && afterRun p rest)

def matchTokens : List Token → List Char → Bool
  | [], cs => cs.isEmpty
  | .anyRun :: ts, cs => afterRun (matchTokens ts) cs
  | .anySegments :: ts, cs =>
    matchTokens ts cs || afterSlash (matchTokens ts) cs || matchTokens ts []
  | .char c :: ts, d :: rest => sameLetter c d && matchTokens ts rest
  | .anyChar :: ts, d :: rest => d ≠ '/' && matchTokens ts rest
  | .within ranges :: ts, d :: rest => d ≠ '/' && ranges.any (·.has d) && matchTokens ts rest
  | .except ranges :: ts, d :: rest => d ≠ '/' && !ranges.any (·.has d) && matchTokens ts rest
  | _ :: _, [] => false

def matchesName (g : Glob) (name : String) : Bool := matchTokens g.tokens name.toList

end Glob

end SectionCompiler
