import SectionCompiler.Toml.Value
/-! Numbers, dates and times of TOML. -/

namespace SectionCompiler.Toml

open Decimal (Binary Float64)

def numberOf (base : Nat) (digits : List Char) : Nat :=
  digits.foldl (fun n c =>
    if c = '_' then n
    else
      let d := if c.isDigit then c.toNat - '0'.toNat
        else if 'a' ≤ c then c.toNat - 'a'.toNat + 10
        else c.toNat - 'A'.toNat + 10
      n * base + d) 0

/-- Reads the digits after the first. An underscore has to stand between two digits. -/
def moreDigits? (isDigit : Char → Bool) : List Char → Option (List Char × List Char)
  | [] => some ([], [])
  | ['_'] => none
  | '_' :: c :: rest =>
    if isDigit c then (moreDigits? isDigit rest).map fun (ds, r) => (c :: ds, r) else none
  | c :: rest =>
    if isDigit c then (moreDigits? isDigit rest).map fun (ds, r) => (c :: ds, r)
    else some ([], c :: rest)

def digits? (isDigit : Char → Bool) (cs : List Char) : Option (List Char × List Char) :=
  match cs with
  | c :: rest =>
    if isDigit c then (moreDigits? isDigit rest).map fun (ds, r) => (c :: ds, r) else none
  | [] => none

/-- Reads decimal digits of which the first is no zero, or a single zero. -/
def decimalDigits? (cs : List Char) : Option (List Char × List Char) :=
  match cs with
  | '0' :: rest => some (['0'], rest)
  | _ => digits? Char.isDigit cs

def isHexDigit (c : Char) : Bool :=
  c.isDigit || ('a' ≤ c && c ≤ 'f') || ('A' ≤ c && c ≤ 'F')

def isOctalDigit (c : Char) : Bool := '0' ≤ c && c ≤ '7'

def isBinaryDigit (c : Char) : Bool := c = '0' || c = '1'

def sign? (cs : List Char) : Bool × List Char :=
  match cs with
  | '-' :: rest => (true, rest)
  | '+' :: rest => (false, rest)
  | _ => (false, cs)

/-- Whole numbers have 64 bits. -/
def integerOf (n : Int) : Option Value :=
  if -(Nat.pow 2 63 : Int) ≤ n ∧ n < (Nat.pow 2 63 : Int) then some (.integer n) else none

def integer? (cs : List Char) : Option (Value × List Char) := do
  match cs with
  | '0' :: 'x' :: rest =>
    let (ds, rest) ← digits? isHexDigit rest
    return (← integerOf (numberOf 16 ds), rest)
  | '0' :: 'o' :: rest =>
    let (ds, rest) ← digits? isOctalDigit rest
    return (← integerOf (numberOf 8 ds), rest)
  | '0' :: 'b' :: rest =>
    let (ds, rest) ← digits? isBinaryDigit rest
    return (← integerOf (numberOf 2 ds), rest)
  | _ =>
    let (negative, rest) := sign? cs
    let (ds, rest) ← decimalDigits? rest
    let n : Int := numberOf 10 ds
    return (← integerOf (if negative then -n else n), rest)

def exponent? (cs : List Char) : Option (Int × List Char) := do
  let (negative, rest) := sign? cs
  let (ds, rest) ← digits? Char.isDigit rest
  let n : Int := numberOf 10 ds
  return (if negative then -n else n, rest)

/-- The floating point number nearest to a decimal one. Past the greatest number, only the negative
ones have a value, which is minus infinity. -/
def floatOf (negative : Bool) (digits : Nat) (power : Int) : Option Float64 :=
  match Binary.ofDecimal digits power with
  | some b => some (.finite negative b)
  | none => if negative then some (.infinite true) else none

def isExponentMark (c : Char) : Bool := c = 'e' || c = 'E'

inductive NumberTail where
  | float (digits : List Char) (power : Int) (rest : List Char)
  | none
  | malformed

def numberTail (cs : List Char) : NumberTail :=
  match cs with
  | '.' :: rest =>
    match digits? Char.isDigit rest with
    | Option.none => .malformed
    | some (ds, e :: rest) =>
      if isExponentMark e then
        match exponent? rest with
        | some (power, rest) => .float ds power rest
        | Option.none => .malformed
      else .float ds 0 (e :: rest)
    | some (ds, []) => .float ds 0 []
  | e :: rest =>
    if isExponentMark e then
      match exponent? rest with
      | some (power, rest) => .float [] power rest
      | Option.none => .malformed
    else .none
  | [] => .none

def special? (cs : List Char) : Option (Value × List Char) :=
  let (negative, rest) := sign? cs
  match rest with
  | 'i' :: 'n' :: 'f' :: rest => some (.float (.infinite negative), rest)
  | 'n' :: 'a' :: 'n' :: rest => some (.float .nan, rest)
  | _ => none

def number? (cs : List Char) : Option (Value × List Char) :=
  match special? cs with
  | some r => some r
  | none =>
    let (negative, rest) := sign? cs
    match decimalDigits? rest with
    | none => none
    | some (whole, rest) =>
      match numberTail rest with
      | .malformed => none
      | .none => integer? cs
      | .float fraction power rest => do
        let x ← floatOf negative (numberOf 10 (whole ++ fraction))
          (power - (fraction.filter (· ≠ '_')).length)
        return (.float x, rest)

def fixed? (k : Nat) (cs : List Char) : Option (Nat × List Char) :=
  let ds := cs.take k
  if ds.length = k ∧ ds.all Char.isDigit then some (numberOf 10 ds, cs.drop k) else none

def between (low high : Nat) (r : Option (Nat × List Char)) : Option (Nat × List Char) :=
  r.filter fun (n, _) => low ≤ n && n ≤ high

def isLeapYear (year : Nat) : Bool := year % 4 = 0 && (year % 100 ≠ 0 || year % 400 = 0)

def daysIn (year month : Nat) : Nat :=
  if month = 2 then if isLeapYear year then 29 else 28
  else if month = 4 ∨ month = 6 ∨ month = 9 ∨ month = 11 then 30
  else 31

def padded (width n : Nat) : List Char :=
  let ds := Nat.toDigits 10 n
  List.replicate (width - ds.length) '0' ++ ds

/-- What comes of an attempt to read: text that begins so may yet be malformed. -/
inductive Attempt (α : Type) where
  | read (value : α) (rest : List Char)
  | other
  | malformed

def Attempt.ofOption {α : Type} : Option (α × List Char) → Attempt α
  | some (value, rest) => .read value rest
  | none => .malformed

def monthAndDay? (year : Nat) (cs : List Char) : Option (List Char × List Char) := do
  let (month, rest) ← between 1 12 (fixed? 2 cs)
  match rest with
  | '-' :: rest =>
    let (day, rest) ← between 1 (daysIn year month) (fixed? 2 rest)
    return (padded 4 year ++ '-' :: (padded 2 month ++ '-' :: padded 2 day), rest)
  | _ => none

def date (cs : List Char) : Attempt (List Char) :=
  match fixed? 4 cs with
  | some (year, '-' :: rest) => .ofOption (monthAndDay? year rest)
  | _ => .other

def fraction (ds : List Char) : List Char :=
  let kept := (ds.take 9).reverse.dropWhile (· = '0')
  if kept = [] then [] else '.' :: kept.reverse

def minuteAndSecond? (hour : Nat) (cs : List Char) : Option (List Char × List Char) := do
  let (minute, rest) ← between 0 59 (fixed? 2 cs)
  match rest with
  | ':' :: rest =>
    let (second, rest) ← between 0 60 (fixed? 2 rest)
    let whole := padded 2 hour ++ ':' :: (padded 2 minute ++ ':' :: padded 2 second)
    match rest with
    | '.' :: after =>
      let ds := after.takeWhile Char.isDigit
      if ds = [] then return (whole, rest)
      else return (whole ++ fraction ds, after.dropWhile Char.isDigit)
    | _ => return (whole, rest)
  | _ => none

def time (cs : List Char) : Attempt (List Char) :=
  match between 0 23 (fixed? 2 cs) with
  | some (hour, ':' :: rest) => .ofOption (minuteAndSecond? hour rest)
  | _ => .other

def offset (cs : List Char) : Attempt (List Char) :=
  match cs with
  | 'Z' :: rest | 'z' :: rest => .read ['Z'] rest
  | s :: rest =>
    if s = '+' ∨ s = '-' then
      match between 0 23 (fixed? 2 rest) with
      | some (hour, ':' :: rest) =>
        match between 0 59 (fixed? 2 rest) with
        | some (minute, rest) =>
          let s := if hour = 0 ∧ minute = 0 then '+' else s
          .read (s :: (padded 2 hour ++ ':' :: padded 2 minute)) rest
        | none => .malformed
      | _ => .malformed
    else .other
  | [] => .other

def timeAfter (day cs : List Char) : Attempt (List Char) :=
  match cs with
  | d :: rest =>
    if d = 'T' ∨ d = 't' ∨ d = ' ' then
      match time rest with
      | .malformed => .malformed
      | .other => .read day cs
      | .read clock rest =>
        match offset rest with
        | .malformed => .malformed
        | .other => .read (day ++ 'T' :: clock) rest
        | .read zone rest => .read (day ++ 'T' :: (clock ++ zone)) rest
    else .read day cs
  | [] => .read day []

def datetime (cs : List Char) : Attempt (List Char) :=
  match date cs with
  | .malformed => .malformed
  | .read day rest => timeAfter day rest
  | .other => time cs

def numeric? (cs : List Char) : Option (Value × List Char) :=
  match datetime cs with
  | .malformed => none
  | .read text rest => some (.datetime (String.ofList text), rest)
  | .other => number? cs

end SectionCompiler.Toml
