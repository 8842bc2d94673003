import MonkeyLang.Json
import MonkeyLang.Decimal
import MonkeyLang.Text.Hex

/-!
# Reading JSON

`Json.read` reads a text that is one JSON value between white space. Beside the numbers of the
standard it takes `NaN`, `Infinity` and `-Infinity`. A key given twice has its last value. An escape
for half of a surrogate pair that stands by itself is read as this half.

An integer with too many digits is a flaw of its own, found as soon as the integer is read.
-/

namespace MonkeyLang

namespace Json

/-- Why a text is not read. -/
inductive Flaw where
  | malformed
  | overlong
deriving DecidableEq, Repr

/-- A reading of the characters of a text. -/
abbrev Reader := StateT (List Char) (Except Flaw)

namespace Reader

/-- Break off at a character that does not belong here. -/
def refuse {α : Type} : Reader α := throw .malformed

/-- Pass over white space. -/
def skipSpace : Reader Unit :=
  modify (·.dropWhile fun c => c = ' ' || c = '\t' || c = '\n' || c = '\r')

/-- Read a character. -/
def char : Reader Char := do
  match ← get with
  | [] => refuse
  | c :: r =>
    set r
    return c

/-- Read the character `c`. -/
def expect (c : Char) : Reader Unit := do
  if (← char) ≠ c then refuse

/-- Read the character `c` if it is the next one. -/
def accept (c : Char) : Reader Bool := do
  match ← get with
  | d :: r =>
    if d = c then
      set r
      return true
    else return false
  | [] => return false

/-- Read as many characters of a class as there are. -/
def takeWhile (p : Char → Bool) : Reader (List Char) :=
  modifyGet fun cs => (cs.takeWhile p, cs.dropWhile p)

/-- Read a given word if it is the next one. -/
def word? (word : String) : Reader Bool := do
  let cs ← get
  if word.toList.isPrefixOf cs then
    set (cs.drop word.length)
    return true
  else return false

/-! ## Strings -/

/-- Four hexadecimal digits. -/
def fourHex : Reader Nat := do
  let digits := (← get).take 4
  modify (·.drop 4)
  match digits.mapM Text.hexValue? with
  | some [a, b, c, d] => return ((a * 16 + b) * 16 + c) * 16 + d
  | _ => refuse

/-- The code unit of an escape that follows, if it is the second half of a surrogate pair. -/
def lowSurrogate? : List Char → Option Nat
  | '\\' :: 'u' :: r =>
    match (r.take 4).mapM Text.hexValue? with
    | some [13, b, c, d] => if 12 ≤ b then some (((13 * 16 + b) * 16 + c) * 16 + d) else none
    | _ => none
  | _ => none

/-- The code point of an escape by number. The first half of a surrogate pair takes the second
with it. -/
def unicodeEscape : Reader CodePoint := do
  let unit ← fourHex
  match lowSurrogate? (← get) with
  | some low =>
    if 0xd800 ≤ unit ∧ unit < 0xdc00 then
      modify (·.drop 6)
      return .ofNat (0x10000 + (unit - 0xd800) * 0x400 + (low - 0xdc00))
    else return .ofNat unit
  | none => return .ofNat unit

/-- The code point of an escape, whose backslash has been read. -/
def escape : Reader CodePoint := do
  match ← char with
  | '"' => return '"'
  | '\\' => return '\\'
  | '/' => return '/'
  | 'b' => return '\x08'
  | 'f' => return '\x0c'
  | 'n' => return '\n'
  | 'r' => return '\r'
  | 't' => return '\t'
  | 'u' => unicodeEscape
  | _ => refuse

/-- The code points of a string up to its closing quote, behind `done`, which is reversed. -/
def stringRest (done : List CodePoint) : Nat → Reader Text
  | 0 => refuse
  | n + 1 => do
    let c ← char
    if c = '"' then return .ofList done.reverse
    else if c.toNat < 0x20 then refuse
    else if c = '\\' then
      let c ← escape
      stringRest (c :: done) n
    else stringRest (c :: done) n

/-- A string whose opening quote has been read. -/
def string : Reader Text := do stringRest [] (← get).length

/-! ## Numbers -/

/-- The digits of the integer part: one zero, or digits that start with no zero. -/
def wholeDigits : Reader (List Char) := do
  if ← accept '0' then return ['0']
  else
    match ← takeWhile Char.isDigit with
    | [] => refuse
    | digits => return digits

/-- The digits behind a decimal point, if the point has digits behind it. -/
def fraction? : Reader (Option (List Char)) := do
  match ← get with
  | '.' :: r =>
    let digits := r.takeWhile Char.isDigit
    if digits.isEmpty then return none
    else
      set (r.dropWhile Char.isDigit)
      return some digits
  | _ => return none

/-- The exponent, if its letter has digits behind it. -/
def exponent? : Reader (Option Int) := do
  match ← get with
  | [] => return none
  | e :: r =>
    if e ≠ 'e' ∧ e ≠ 'E' then return none
    else
      let unsigned := if r.head? = some '-' ∨ r.head? = some '+' then r.drop 1 else r
      let digits := unsigned.takeWhile Char.isDigit
      if digits.isEmpty then return none
      else
        set (unsigned.dropWhile Char.isDigit)
        let magnitude : Int := Decimal.value digits
        return some (if r.head? = some '-' then -magnitude else magnitude)

/-- A number. -/
def number : Reader Json := do
  let negative ← accept '-'
  let whole ← wholeDigits
  match ← fraction?, ← exponent? with
  | none, none =>
    if Decimal.longest < whole.length then throw .overlong
    else
      let magnitude : Int := Decimal.value whole
      return .int (if negative then -magnitude else magnitude)
  | fraction?, exponent? =>
    let fraction := fraction?.getD []
    let power := exponent?.getD 0 - fraction.length
    return .real (.ofDecimal negative (Decimal.value (whole ++ fraction)) power)

/-! ## Values -/

/-- Items with commas between them, of which the first has been read and `close` ends the last. -/
def othersUntil {α : Type} (close : Char) (item : Reader α) : Nat → Reader (List α)
  | 0 => refuse
  | n + 1 => do
    skipSpace
    if ← accept close then return []
    else
      expect ','
      skipSpace
      let first ← item
      let others ← othersUntil close item n
      return first :: others

/-- Items with commas between them up to `close`, whose opening character has been read. -/
def listUntil {α : Type} (close : Char) (item : Reader α) : Reader (List α) := do
  skipSpace
  if ← accept close then return []
  else
    let first ← item
    let others ← othersUntil close item (← get).length
    return first :: others

/-- A key and its value. -/
def member (value : Reader Json) : Reader (Text × Json) := do
  expect '"'
  let key ← string
  skipSpace
  expect ':'
  skipSpace
  return (key, ← value)

/-- A value that has no parts. -/
def scalar : Reader Json := do
  if ← word? "null" then return .null
  else if ← word? "true" then return .bool true
  else if ← word? "false" then return .bool false
  else if ← word? "NaN" then return .real .nan
  else if ← word? "Infinity" then return .real (.infinite false)
  else if ← word? "-Infinity" then return .real (.infinite true)
  else number

/-- A value with at most `depth` values inside each other. -/
def value (depth : Nat) : Reader Json :=
  match depth with
  | 0 => refuse
  | depth + 1 => do
    if ← accept '"' then return .str (← string)
    else if ← accept '[' then return .arr (← listUntil ']' (value depth))
    else if ← accept '\x7b' then return .ofMembers (← listUntil '\x7d' (member (value depth)))
    else scalar

/-- A value between white space, with nothing behind it. -/
def document : Reader Json := do
  skipSpace
  let result ← value (← get).length
  skipSpace
  match ← get with
  | [] => return result
  | _ :: _ => refuse

end Reader

/-- Read a text as a JSON value. -/
def read (text : String) : Except Flaw Json := Reader.document.run' text.toList

end Json

end MonkeyLang
