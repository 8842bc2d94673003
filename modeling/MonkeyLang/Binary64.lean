/-!
# Binary floating point numbers of 64 bits

A finite number is an integer times a power of two; below `maxMantissa` any integer fits, and
exponents run from `minExponent` to `maxExponent`. `Binary64.ofDecimal` rounds a decimal numeral
to the nearest such number, a tie to the even one. All arithmetic is exact, on natural numbers.
-/

namespace MonkeyLang

/-- A floating point number. A finite one is `mantissa * 2 ^ exponent`. -/
inductive Binary64 where
  | finite (negative : Bool) (mantissa : Nat) (exponent : Int)
  | infinite (negative : Bool)
  | nan
deriving DecidableEq, Repr

namespace Binary64

/-- The bound of mantissas: they have 53 bits. -/
def maxMantissa : Nat := Nat.pow 2 53

/-- The exponent of the numbers around zero. -/
def minExponent : Int := -1074

/-- The exponent of the largest numbers. -/
def maxExponent : Int := 971

/-- The quotient rounded to the nearest integer, a tie to the even one. -/
def roundDiv (num den : Nat) : Nat :=
  let floor := num / den
  let twice := 2 * (num % den)
  if twice < den then floor
  else if den < twice then floor + 1
  else if floor % 2 = 0 then floor else floor + 1

/-- The numerator and the denominator of `num / den` when it is counted in units of
`2 ^ exponent`. -/
def scale (num den : Nat) (exponent : Int) : Nat × Nat :=
  let factor := Nat.pow 2 exponent.natAbs
  if exponent < 0 then (num * factor, den) else (num, den * factor)

/-- The exponent at which the integer part of the quotient has 53 bits, or at least the least
exponent there is. -/
def exponentFor (num den : Nat) : Int :=
  let guess : Int := num.log2 - den.log2 - 52
  let (n, d) := scale num den guess
  let exponent := if n / d < maxMantissa / 2 then guess - 1 else guess
  max exponent minExponent

/-- The number nearest to a positive quotient. -/
def ofQuotient (negative : Bool) (num den : Nat) : Binary64 :=
  let exponent := exponentFor num den
  let (n, d) := scale num den exponent
  let mantissa := roundDiv n d
  let (mantissa, exponent) :=
    if mantissa = maxMantissa then (mantissa / 2, exponent + 1) else (mantissa, exponent)
  if maxExponent < exponent then infinite negative else finite negative mantissa exponent

/-- The number nearest to `digits * 10 ^ power`. Far beyond the range of exponents the powers
of ten are not computed. -/
def ofDecimal (negative : Bool) (digits : Nat) (power : Int) : Binary64 :=
  let magnitude := power + (Nat.toDigits 10 digits).length
  if digits = 0 ∨ magnitude < -400 then finite negative 0 minExponent
  else if 400 < magnitude then infinite negative
  else if power < 0 then ofQuotient negative digits (Nat.pow 10 power.natAbs)
  else ofQuotient negative (digits * Nat.pow 10 power.natAbs) 1

end Binary64

end MonkeyLang
