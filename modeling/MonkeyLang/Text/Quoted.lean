import MonkeyLang.Text.Hex
import MonkeyLang.Text.Printable

/-!
# Quoted text

A text between quotes, with escapes for the quote, the backslash and all characters that are not
printable. Single quotes are used unless the text has a single quote and no double quote.
-/

namespace MonkeyLang

namespace Text

/-- The quote to write a text in. -/
def quoteFor (cs : List CodePoint) : CodePoint :=
  if cs.contains '\x27' && ! cs.contains '"' then '"' else '\x27'

/-- An escape by number, in as many hexadecimal digits as its letter says. -/
def numberEscape (letter : Char) (digits n : Nat) : List CodePoint :=
  '\\' :: letter :: (hexDigits digits n).map CodePoint.char

/-- A code point as it stands between quotes. -/
def quotedChar (quote c : CodePoint) : List CodePoint :=
  if c = quote ∨ c = '\\' then ['\\', c]
  else match c with
    | .char '\n' => ['\\', 'n']
    | .char '\t' => ['\\', 't']
    | .char '\r' => ['\\', 'r']
    | c =>
      if isPrintable c then [c]
      else if c.toNat < 0x100 then numberEscape 'x' 2 c.toNat
      else if c.toNat < 0x10000 then numberEscape 'u' 4 c.toNat
      else numberEscape 'U' 8 c.toNat

/-- A text between quotes. -/
def quoted (t : Text) : Text :=
  let quote := quoteFor t.toList
  ofList (quote :: t.toList.flatMap (quotedChar quote) ++ [quote])

end Text

end MonkeyLang
