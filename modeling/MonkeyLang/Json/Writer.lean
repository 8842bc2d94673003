import MonkeyLang.Json
import MonkeyLang.Binary64.Shortest
import MonkeyLang.Text.Quoted

/-!
# Writing JSON

* `Json.write` writes a value in one line of ASCII, with a blank behind each comma and colon.
* `Json.display` writes a value for a message: a string as it is, and inside other values in
  quotes; the other scalars as `None`, `True` and `False`.
-/

namespace MonkeyLang

namespace Json

/-- An escape by number. -/
def escapeUnit (unit : Nat) : List Char := '\\' :: 'u' :: Text.hexDigits 4 unit

/-- A code point as it stands in a string: characters beyond the basic plane are written as a
surrogate pair. -/
def escapeChar (c : CodePoint) : List Char :=
  match c with
  | .char '"' => ['\\', '"']
  | .char '\\' => ['\\', '\\']
  | .char '\n' => ['\\', 'n']
  | .char '\r' => ['\\', 'r']
  | .char '\t' => ['\\', 't']
  | .char '\x0c' => ['\\', 'f']
  | .char '\x08' => ['\\', 'b']
  | .surrogate _ => escapeUnit c.toNat
  | .char c =>
    let n := c.toNat
    if 0x20 ≤ n ∧ n ≤ 0x7e then [c]
    else if n < 0x10000 then escapeUnit n
    else
      escapeUnit (0xd800 + (n - 0x10000) / 0x400) ++ escapeUnit (0xdc00 + (n - 0x10000) % 0x400)

/-- A string in quotes. -/
def writeString (t : Text) : String :=
  String.ofList ('"' :: t.toList.flatMap escapeChar ++ ['"'])

/-- A floating point number; those that are no number have names. -/
def writeReal : Binary64 → String
  | .nan => "NaN"
  | .infinite negative => if negative then "-Infinity" else "Infinity"
  | x => x.text

/-- Texts with a comma and a blank between them. -/
def commaSep (texts : List String) : String := String.intercalate ", " texts

mutual

/-- The text of a value in one line. -/
def write : Json → String
  | null => "null"
  | bool b => if b then "true" else "false"
  | int n => toString n
  | real x => writeReal x
  | str s => writeString s
  | arr elements => "[" ++ commaSep (writeAll elements) ++ "]"
  | obj members => "\x7b" ++ commaSep (writeMembers members) ++ "\x7d"

/-- The texts of some values. -/
def writeAll : List Json → List String
  | [] => []
  | value :: values => value.write :: writeAll values

/-- The texts of the members of an object. -/
def writeMembers : List (Text × Json) → List String
  | [] => []
  | (key, value) :: members => (writeString key ++ ": " ++ value.write) :: writeMembers members

end

mutual

/-- The text of a value inside another one. -/
def displayInner : Json → Text
  | null => "None"
  | bool b => if b then "True" else "False"
  | int n => toString n
  | real x => x.text
  | str s => Text.quoted s
  | arr elements => "[" ++ Text.intercalate ", " (displayAll elements) ++ "]"
  | obj members => "\x7b" ++ Text.intercalate ", " (displayMembers members) ++ "\x7d"

/-- The texts of some values inside another one. -/
def displayAll : List Json → List Text
  | [] => []
  | value :: values => value.displayInner :: displayAll values

/-- The texts of the members of an object inside a message. -/
def displayMembers : List (Text × Json) → List Text
  | [] => []
  | (key, value) :: members =>
    (Text.quoted key ++ ": " ++ value.displayInner) :: displayMembers members

end

/-- The text of a value in a message. -/
def display : Json → Text
  | str s => s
  | value => value.displayInner

end Json

end MonkeyLang
