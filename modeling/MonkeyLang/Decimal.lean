/-!
# Decimal numerals

Integers have any size, but no text of one has more than `Decimal.longest` digits: a longer
literal cannot be read, and a larger integer cannot be written.
-/

namespace MonkeyLang

namespace Decimal

/-- The greatest number of digits of a numeral. -/
def longest : Nat := 4300

/-- The number that a row of decimal digits denotes. -/
def value (digits : List Char) : Nat :=
  digits.foldl (fun n c => 10 * n + (c.toNat - '0'.toNat)) 0

/-- The least number that takes too many digits. -/
def limit : Nat := Nat.pow 10 longest

/-- Does the integer take more digits than can be written? -/
def isOverlong (n : Int) : Bool := limit ≤ n.natAbs

/-- The text of an integer that can be written. -/
def write? (n : Int) : Option String := if isOverlong n then none else some (toString n)

end Decimal

end MonkeyLang
