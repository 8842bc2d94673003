import MonkeyLang.Decimal
import MonkeyLang.Text.Blank
import MonkeyLang.Text.Digit

/-!
# Numerals of settings

An integer as a person writes it: white space around it, a sign, and decimal digits of any script
with single underscores between them.
-/

namespace MonkeyLang

namespace Text

/-- The digits of a numeral, without the underscores between them. -/
def numeralDigits? : List Char → Option (List Nat)
  | [] => none
  | [c] => do return [← digit? c]
  | c :: '_' :: r => do return (← digit? c) :: (← numeralDigits? r)
  | c :: r => do return (← digit? c) :: (← numeralDigits? r)

/-- The number without a sign that a numeral denotes, unless it has too many digits. -/
def natural? (cs : List Char) : Option Nat := do
  let digits ← numeralDigits? cs
  guard (digits.length ≤ Decimal.longest)
  return digits.foldl (fun n d => 10 * n + d) 0

/-- The integer that a text denotes. -/
def integer? (text : String) : Option Int :=
  match stripOf isNumberSpace text.toList with
  | '-' :: r => do return - (← natural? r)
  | '+' :: r => do return ← natural? r
  | cs => do return ← natural? cs

end Text

end MonkeyLang
