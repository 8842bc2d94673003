/-!
# Halts

A halt stops the machine itself, not only the program: no value and no fault comes of it.
-/

namespace MonkeyLang

/-- Why the machine itself stops. -/
inductive Halt where
  /-- Evaluations, or pieces of program, stand too deep inside each other. -/
  | overflow
  /-- An integer has too many digits to be written. -/
  | overlong
  /-- A text has no UTF-8 form to be digested. -/
  | unencodable
deriving DecidableEq, Repr

end MonkeyLang
