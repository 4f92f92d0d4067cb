/-! Binary floating point numbers of 64 bits, and the one that is nearest to a decimal number. A
finite number is a mantissa times a power of two. -/

namespace SectionCompiler.Decimal

/-- A finite magnitude `mantissa * 2 ^ exponent`. The mantissa has 53 bits, or fewer at the least
exponent. -/
structure Binary where
  mantissa : Nat
  exponent : Int
  deriving DecidableEq, Repr

inductive Float64 where
  | finite (negative : Bool) (magnitude : Binary)
  | infinite (negative : Bool)
  | nan
  deriving DecidableEq, Repr

namespace Binary

def minExponent : Int := -1074

def maxExponent : Int := 971

/-- The quotient of two numbers, rounded to the nearest; a half goes to the even neighbour. -/
def roundDiv (num den : Nat) : Nat :=
  let q := num / den
  let r := num % den
  if den < 2 * r ∨ (den = 2 * r ∧ q % 2 = 1) then q + 1 else q

/-- The numerator and the denominator of `num / den / 2 ^ exponent`. -/
def scaled (num den : Nat) (exponent : Int) : Nat × Nat :=
  if 0 ≤ exponent then (num, den * Nat.pow 2 exponent.toNat) else (num * Nat.pow 2 (-exponent).toNat, den)

/-- The magnitude nearest to a fraction, or nothing when it is past the greatest one. -/
def ofFraction (num den : Nat) : Option Binary :=
  if num = 0 then some ⟨0, minExponent⟩
  else
    let low := max ((num.log2 : Int) - (den.log2 : Int) - 53) minExponent
    let exponent :=
      let (n, d) := scaled num den low
      if Nat.pow 2 53 ≤ n / d then low + 1 else low
    let (n, d) := scaled num den exponent
    let mantissa := roundDiv n d
    let (mantissa, exponent) :=
      if mantissa = Nat.pow 2 53 then (Nat.pow 2 52, exponent + 1) else (mantissa, exponent)
    if maxExponent < exponent then none else some ⟨mantissa, exponent⟩

/-- The magnitude nearest to `digits * 10 ^ power`. Numbers of more than 310 places are past the
greatest magnitude, and those below `10 ^ (-400)` are nearest to zero. -/
def ofDecimal (digits : Nat) (power : Int) : Option Binary :=
  if digits = 0 then some ⟨0, minExponent⟩
  else
    let places := (Nat.toDigits 10 digits).length + power
    if 310 < places then none
    else if places < -400 then some ⟨0, minExponent⟩
    else if 0 ≤ power then ofFraction (digits * Nat.pow 10 power.toNat) 1
    else ofFraction digits (Nat.pow 10 (-power).toNat)

end Binary

end SectionCompiler.Decimal
