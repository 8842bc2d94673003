import MonkeyLang.Text

/-!
# White space

The characters that count as white space at the ends of a text, in three sets that different
inputs go by.

* `isSpace`: all white space of Unicode and the four ASCII separators; lines and settings.
* `isAsciiSpace`: the white space of ASCII; bytes of a connection.
* `isNumberSpace`: what may surround a number.
-/

namespace MonkeyLang

namespace Text

/-- The white space of ASCII: the blank, and tab to carriage return. -/
def isAsciiSpace (c : Char) : Bool := c = ' ' || (9 ≤ c.toNat && c.toNat ≤ 13)

/-- White space of Unicode beyond ASCII. -/
def isWideSpace (c : Char) : Bool :=
  [0x85, 0xa0, 0x1680, 0x2028, 0x2029, 0x202f, 0x205f, 0x3000].contains c.toNat ||
    (0x2000 ≤ c.toNat && c.toNat ≤ 0x200a)

/-- The file, group, record and unit separators of ASCII. -/
def isSeparator (c : Char) : Bool := 0x1c ≤ c.toNat && c.toNat ≤ 0x1f

/-- All white space, and the ASCII separators. -/
def isSpace (c : Char) : Bool := isAsciiSpace c || isSeparator c || isWideSpace c

/-- White space that may surround a number: no ASCII separators. -/
def isNumberSpace (c : Char) : Bool := isAsciiSpace c || isWideSpace c

/-- A row of characters without those of a class at its ends. -/
def stripOf {α : Type} (p : α → Bool) (cs : List α) : List α :=
  ((cs.dropWhile p).reverse.dropWhile p).reverse

/-- A text without the white space at its ends. -/
def strip (s : String) : String := String.ofList (stripOf isSpace s.toList)

/-- Is there nothing but white space? -/
def isBlankLine (t : Text) : Bool := t.toList.all fun c => c.char?.any isSpace

end Text

end MonkeyLang
