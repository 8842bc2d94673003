import MonkeyLang.Text.Lines

/-!
# The word under the cursor

A word is a run of letters, digits and underscores of ASCII. The cursor stands between two
characters of a line, both counted from zero, and touches the words on both sides of it.
-/

namespace MonkeyLang

namespace Editor

/-- A character of a word. -/
def isWordChar (c : CodePoint) : Bool := c.isAlphanum || c = '_'

/-- The word that touches a position in a line, empty if none does. A position behind the line
counts as its end. -/
def wordInLine (line : List CodePoint) (character : Nat) : List CodePoint :=
  let before := ((line.take character).reverse.takeWhile isWordChar).reverse
  before ++ (line.drop character).takeWhile isWordChar

/-- The word that touches a position in a text. -/
def wordAt (text : Text) (line character : Nat) : Option Text :=
  match (Text.editorLines text.toList)[line]? with
  | none => none
  | some row =>
    match wordInLine row character with
    | [] => none
    | word => some (Text.ofList word)

end Editor

end MonkeyLang
