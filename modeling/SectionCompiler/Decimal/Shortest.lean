import SectionCompiler.Decimal.Binary
/-! The decimal numbers that stand for binary ones: those with the fewest digits that read back as
the same binary number, and of these the nearest. Of two as near, a rule for ties takes one. -/

namespace SectionCompiler.Decimal

/-- A decimal number `digits * 10 ^ power`. -/
structure Digits where
  digits : Nat
  power : Int
  deriving DecidableEq, Repr

inductive Tie where
  | greater
  | even
  deriving DecidableEq, Repr

def Tie.pick (t : Tie) (n : Nat) : Nat :=
  match t with
  | greater => n + 1
  | even => if n % 2 = 0 then n else n + 1

namespace Binary

/-- The distances, in quarters of a unit of the mantissa, to the ends of the interval of numbers
that round to a magnitude. Below a power of two the next magnitude is only half as far. -/
def reach (b : Binary) : Nat × Nat :=
  if b.mantissa = Nat.pow 2 52 ∧ minExponent < b.exponent then (1, 2) else (2, 2)

/-- A common scale for quarters of a unit of the mantissa and steps of `10 ^ power`: the factors
that turn either into whole numbers. -/
def scales (b : Binary) (power : Int) : Nat × Nat :=
  let quarter := b.exponent - 2
  (Nat.pow 2 quarter.toNat * Nat.pow 10 (-power).toNat,
    Nat.pow 10 power.toNat * Nat.pow 2 (-quarter).toNat)

/-- The multiple of `10 ^ power` that reads back as a magnitude, if there is one: the nearer of
the two around it. -/
def onGrid? (tie : Tie) (b : Binary) (power : Int) : Option Nat :=
  let (unit, step) := b.scales power
  let value := 4 * b.mantissa * unit
  let low := value - b.reach.1 * unit
  let high := value + b.reach.2 * unit
  let inside (n : Nat) : Bool :=
    if b.mantissa % 2 = 0 then low ≤ n && n ≤ high else low < n && n < high
  let below := value / step
  let above := below + 1
  match inside (below * step), inside (above * step) with
  | true, true =>
    if value - below * step < above * step - value then some below
    else if above * step - value < value - below * step then some above
    else some (tie.pick below)
  | true, false => some below
  | false, true => some above
  | false, false => none

/-- The power of ten of the first digit of a magnitude that is not zero, or one more. -/
def leading (b : Binary) : Int :=
  if 0 ≤ b.exponent then
    ((Nat.toDigits 10 (b.mantissa * Nat.pow 2 b.exponent.toNat)).length : Int) - 1
  else
    let k := (-b.exponent).toNat
    -- `2 ^ (-k)` is `5 ^ k / 10 ^ k`
    ((Nat.toDigits 10 (b.mantissa * Nat.pow 5 k)).length : Int) - 1 - k

def searchGrid (tie : Tie) (b : Binary) : Nat → Int → Digits
  | 0, power => ⟨(onGrid? tie b power).getD 0, power⟩
  | more + 1, power =>
    match onGrid? tie b power with
    | some n => ⟨n, power⟩
    | none => searchGrid tie b more (power - 1)

/-- Takes the zeros off the end of the digits; `fuel` bounds their number. -/
def dropZeros : Nat → Digits → Digits
  | 0, d => d
  | fuel + 1, d => if d.digits % 10 = 0 then dropZeros fuel ⟨d.digits / 10, d.power + 1⟩ else d

/-- The shortest decimal number that reads back as a magnitude. -/
def shortest (tie : Tie) (b : Binary) : Digits :=
  if b.mantissa = 0 then ⟨0, 0⟩ else dropZeros 20 (searchGrid tie b 17 b.leading)

end Binary

structure Layout where
  tie : Tie
  /-- Without an exponent, the first digit stands at most this many places before the point. -/
  maxPlaces : Option Nat
  /-- Without an exponent, at most this many zeros stand between the point and the digits. -/
  maxZeros : Option Nat
  /-- A whole number without an exponent ends in `.0`. -/
  pointZero : Bool
  infinite : String
  nan : String

namespace Layout

def digitText (n : Nat) : List Char := Nat.toDigits 10 n

def zeros (n : Nat) : List Char := List.replicate n '0'

def positional (l : Layout) (digits : List Char) (power : Int) : List Char :=
  let places := digits.length + power
  if 0 ≤ power then
    digits ++ zeros power.toNat ++ (if l.pointZero then ['.', '0'] else [])
  else if 0 < places then
    digits.take places.toNat ++ '.' :: digits.drop places.toNat
  else '0' :: '.' :: (zeros (-places).toNat ++ digits)

def scientific (digits : List Char) (power : Int) : List Char :=
  let exponent := digits.length + power - 1
  digits.take 1 ++ (if digits.length = 1 then [] else '.' :: digits.drop 1) ++
    'e' :: (toString exponent).toList

def magnitude (l : Layout) (b : Binary) : List Char :=
  let d := b.shortest l.tie
  let digits := digitText d.digits
  let places := digits.length + d.power
  if l.maxPlaces.all (fun n => places ≤ n) && l.maxZeros.all (fun n => -(n : Int) ≤ places) then
    l.positional digits d.power
  else scientific digits d.power

def sign (negative : Bool) : List Char := if negative then ['-'] else []

def write (l : Layout) : Float64 → String
  | .finite negative b => String.ofList (sign negative ++ l.magnitude b)
  | .infinite negative => String.ofList (sign negative ++ l.infinite.toList)
  | .nan => l.nan

end Layout

end SectionCompiler.Decimal
