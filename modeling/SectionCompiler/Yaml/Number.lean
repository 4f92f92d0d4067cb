import SectionCompiler.Decimal.Shortest
/-! Which plain words of YAML are null, truth values and numbers, and how numbers are written. -/

namespace SectionCompiler.Yaml

open Decimal (Binary Float64 Layout)

inductive Number where
  | whole (n : Int)
  | float (x : Float64)
  deriving DecidableEq, Repr

/-- Numbers of up to 16 places and fractions with up to four zeros after the point are written
without an exponent. -/
def floatLayout : Layout := ⟨.even, some 16, some 4, true, ".inf", ".nan"⟩

namespace Number

def write : Number → String
  | whole n => toString n
  | float x => floatLayout.write x

/-- Equality of numbers as keys: the two zeros are equal. -/
def same : Number → Number → Bool
  | float (.finite n a), float (.finite m b) =>
    (a.mantissa = 0 && b.mantissa = 0) || (n = m && a = b)
  | a, b => a = b

end Number

def isNull (word : List Char) : Bool :=
  word = [] || word = ['~'] || word = "null".toList || word = "Null".toList ||
    word = "NULL".toList

def bool? (word : List Char) : Option Bool :=
  if word = "true".toList ∨ word = "True".toList ∨ word = "TRUE".toList then some true
  else if word = "false".toList ∨ word = "False".toList ∨ word = "FALSE".toList then some false
  else none

def digitValue? (c : Char) : Option Nat :=
  if c.isDigit then some (c.toNat - '0'.toNat)
  else if 'a' ≤ c ∧ c ≤ 'z' then some (c.toNat - 'a'.toNat + 10)
  else if 'A' ≤ c ∧ c ≤ 'Z' then some (c.toNat - 'A'.toNat + 10)
  else none

def digits? (base : Nat) (cs : List Char) : Option Nat :=
  if cs = [] then none
  else cs.foldlM (fun n c => do
    let d ← digitValue? c
    if d < base then some (n * base + d) else none) 0

/-- Leading zeros make a word of digits a text. -/
def hasLeadingZero (word : List Char) : Bool :=
  let digits := match word with
    | '-' :: rest => rest
    | '+' :: rest => rest
    | _ => word
  1 < digits.length && digits.head? = some '0' && digits.all Char.isDigit

/-- The magnitude that a word without a sign spells, in base 16, 8, 2 or 10. -/
def magnitude? (decimal : Bool) (cs : List Char) : Option Nat :=
  let based := match cs with
    | '0' :: 'x' :: rest => digits? 16 rest
    | '0' :: 'o' :: rest => digits? 8 rest
    | '0' :: 'b' :: rest => digits? 2 rest
    | _ => none
  based <|> if decimal then digits? 10 cs else none

def whole? (word : List Char) : Option Int :=
  let decimal := !hasLeadingZero word
  match word with
  | '-' :: rest => (magnitude? decimal rest).map fun n => -(n : Int)
  | '+' :: rest => (magnitude? decimal rest).map fun n => (n : Int)
  | _ => (magnitude? decimal word).map fun n => (n : Int)

/-- Mantissa and exponent of a decimal number without a sign: digits with at most one point among
them, and after a letter e an exponent. -/
def decimal? (cs : List Char) : Option (Nat × Int) :=
  let first := cs.takeWhile Char.isDigit
  let rest := cs.dropWhile Char.isDigit
  let (second, rest) := match rest with
    | '.' :: rest => (rest.takeWhile Char.isDigit, rest.dropWhile Char.isDigit)
    | _ => ([], rest)
  if first = [] ∧ second = [] then none
  else do
    let mantissa ← digits? 10 (first ++ second)
    let exponent ← match rest with
      | [] => some 0
      | e :: rest =>
        if e = 'e' ∨ e = 'E' then
          match rest with
          | '-' :: rest => (digits? 10 rest).map fun n => -(n : Int)
          | '+' :: rest => (digits? 10 rest).map fun n => (n : Int)
          | _ => (digits? 10 rest).map fun n => (n : Int)
        else none
    return (mantissa, exponent - second.length)

def finite? (negative : Bool) (cs : List Char) : Option Float64 := do
  let (mantissa, power) ← decimal? cs
  (Binary.ofDecimal mantissa power).map (Float64.finite negative)

def isInfinity (cs : List Char) : Bool :=
  cs = ".inf".toList || cs = ".Inf".toList || cs = ".INF".toList

def isNotANumber (cs : List Char) : Bool :=
  cs = ".nan".toList || cs = ".NaN".toList || cs = ".NAN".toList

def float? (word : List Char) : Option Float64 :=
  if isNotANumber word then some .nan
  else match word with
    | '-' :: rest => if isInfinity rest then some (.infinite true) else finite? true rest
    | '+' :: rest => if isInfinity rest then some (.infinite false) else finite? false rest
    | _ => if isInfinity word then some (.infinite false) else finite? false word

end SectionCompiler.Yaml
