import MonkeyLang.Text

/-!
# Lines

Two ways to cut a text into lines: at every character that Unicode calls a line boundary, as an
editor does, and at newlines alone, as a prompt does.
-/

namespace MonkeyLang

namespace Text

/-- A character that ends a line of an editor. -/
def isLineBreak (c : CodePoint) : Bool :=
  [0x0a, 0x0b, 0x0c, 0x0d, 0x1c, 0x1d, 0x1e, 0x85, 0x2028, 0x2029].contains c.toNat

/-- Put a character in front of the first line. -/
def consFirst (c : CodePoint) : List (List CodePoint) → List (List CodePoint)
  | [] => [[c]]
  | line :: lines => (c :: line) :: lines

/-- The lines of a text, without their ends. A carriage return and a newline end one line
together. A text that ends with a line end has no empty line behind it. -/
def editorLines : List CodePoint → List (List CodePoint)
  | [] => []
  | .char '\r' :: .char '\n' :: r => [] :: editorLines r
  | c :: r => if isLineBreak c then [] :: editorLines r else consFirst c (editorLines r)

/-- The pieces of a row that each end in `stop`, with it, and what is left behind the last. -/
def piecesEndingIn {α : Type} [DecidableEq α] (stop : α) : List α → List (List α) × List α
  | [] => ([], [])
  | c :: r =>
    let (pieces, left) := piecesEndingIn stop r
    if c = stop then ([c] :: pieces, left)
    else match pieces with
      | [] => ([], c :: left)
      | piece :: pieces => ((c :: piece) :: pieces, left)

/-- The lines of a text, each with the newline that ends it; the last may have none. -/
def promptLines (cs : List CodePoint) : List (List CodePoint) :=
  let (lines, left) := piecesEndingIn (.char '\n') cs
  if left.isEmpty then lines else lines ++ [left]

/-- The text with every line end written as a newline alone. -/
def unifyNewlines : List Char → List Char
  | [] => []
  | '\r' :: '\n' :: r => '\n' :: unifyNewlines r
  | c :: r => (if c = '\r' then '\n' else c) :: unifyNewlines r

end Text

end MonkeyLang
