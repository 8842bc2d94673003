import MonkeyLang.Binary64

/-!
# The shortest decimal text of a number

`Binary64.text` writes a number with the fewest digits that read back as the same number, and of
these with the digits nearest to it. Powers of ten from `10 ^ -4` up to `10 ^ 16` are written
without an exponent, and a number that looks like an integer gets `.0` behind it.

The numbers that round to `m * 2 ^ e` form an interval; `Interval` holds its ends as numerators
over one common denominator. On the grid of decimals with a given count of digits only the two
neighbours of the number can be the nearest ones.
-/

namespace MonkeyLang

namespace Binary64

/-- The positive number `value / den` and the interval of the numbers that round to it. -/
structure Interval where
  low : Nat
  value : Nat
  high : Nat
  den : Nat
  /-- Do the ends round to the number too? -/
  closed : Bool

/-- The numbers that round to `mantissa * 2 ^ exponent`. Below a power of two the spacing is
half of that above. -/
def Interval.around (mantissa : Nat) (exponent : Int) : Interval :=
  let lower := if mantissa = maxMantissa / 2 ∧ minExponent < exponent then 1 else 2
  let factor := Nat.pow 2 exponent.natAbs
  let (unit, den) := if exponent < 0 then (1, 4 * factor) else (factor, 4)
  ⟨(4 * mantissa - lower) * unit, 4 * mantissa * unit, (4 * mantissa + 2) * unit, den,
    mantissa % 2 = 0⟩

/-- Does `num / den` round to the number? -/
def Interval.contains (i : Interval) (num den : Nat) : Bool :=
  let (low, here, high) := (i.low * den, num * i.den, i.high * den)
  if i.closed then low ≤ here && here ≤ high else low < here && here < high

/-- The numerator and the denominator of `digits * 10 ^ power`. -/
def decimalQuotient (digits : Nat) (power : Int) : Nat × Nat :=
  let factor := Nat.pow 10 power.natAbs
  if power < 0 then (digits, factor) else (digits * factor, 1)

/-- The power of ten that is the least above the number. -/
def Interval.magnitude (i : Interval) : Int :=
  let guess : Int := (Nat.toDigits 10 i.value).length - (Nat.toDigits 10 i.den).length
  let (num, den) := decimalQuotient 1 guess
  if i.value * den < num * i.den then guess else guess + 1

/-- The decimal nearest to the number among those in the interval that are multiples of
`10 ^ power`, by its count of these units. -/
def Interval.nearestOn? (i : Interval) (power : Int) : Option Nat :=
  let (num, den) := decimalQuotient 1 power
  let floor := i.value * den / (i.den * num)
  let twice := 2 * (i.value * den - floor * (i.den * num))
  let unit := i.den * num
  let inside (digits : Nat) := i.contains (digits * num) den
  let floorFirst := twice < unit ∨ (twice = unit ∧ floor % 2 = 0)
  let (first, second) := if floorFirst then (floor, floor + 1) else (floor + 1, floor)
  if inside first then some first
  else if inside second then some second
  else none

/-- The shortest decimal in the interval, with `digits` places at least: its count of units and
the power of ten of the unit. Seventeen places are always enough. -/
def Interval.shortestFrom (i : Interval) (magnitude : Int) (places : Nat) : Nat → Nat × Int
  | 0 => (0, 0)
  | tries + 1 =>
    match i.nearestOn? (magnitude - places) with
    | some digits => (digits, magnitude - places)
    | none => shortestFrom i magnitude (places + 1) tries

/-- The digits of a numeral without the zeros at its end. -/
def trimZeros (digits : List Char) : List Char := (digits.reverse.dropWhile (· = '0')).reverse

/-- The fewest digits that read back as a positive number, and the position of the decimal point
counted from the first of them. -/
def shortest (mantissa : Nat) (exponent : Int) : List Char × Int :=
  let i := Interval.around mantissa exponent
  let (digits, power) := i.shortestFrom i.magnitude 1 17
  let text := Nat.toDigits 10 digits
  (trimZeros text, power + text.length)

/-- An exponent has a sign and two digits at least. -/
def exponentText (e : Int) : List Char :=
  let digits := Nat.toDigits 10 e.natAbs
  'e' :: (if e < 0 then '-' else '+') :: (List.replicate (2 - digits.length) '0' ++ digits)

/-- Digits with a decimal point at a position counted from the first of them. -/
def layout (digits : List Char) (point : Int) : List Char :=
  if -4 < point ∧ point ≤ 0 then
    '0' :: '.' :: (List.replicate point.natAbs '0' ++ digits)
  else if 0 < point ∧ point ≤ 16 then
    let whole := digits.take point.toNat
    let part := digits.drop point.toNat
    whole ++ List.replicate (point.toNat - digits.length) '0' ++
      '.' :: (if part.isEmpty then ['0'] else part)
  else
    let part := digits.drop 1
    digits.take 1 ++ (if part.isEmpty then [] else '.' :: part) ++ exponentText (point - 1)

/-- The text of a number. -/
def text : Binary64 → String
  | nan => "nan"
  | infinite negative => if negative then "-inf" else "inf"
  | finite negative mantissa exponent =>
    let digits :=
      if mantissa = 0 then "0.0".toList
      else
        let (digits, point) := shortest mantissa exponent
        layout digits point
    String.ofList (if negative then '-' :: digits else digits)

end Binary64

end MonkeyLang
