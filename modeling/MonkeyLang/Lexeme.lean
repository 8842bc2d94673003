import MonkeyLang.Token

/-!
# Lexemes

A source text is cut at its head: `Lexeme.split c r` is the lexeme that the text `c :: r` starts
with, and what follows it. A lexeme is layout (a newline, a run of blanks, a comment) or spells
a token. Every character starts some lexeme: one that fits nothing else is illegal by itself.

* `Lexeme.split_append`: lexeme and rest together are the text, so nothing is lost.
* `Lexeme.length_rest_le`: the rest is shorter than the text, so cutting ends.
-/

namespace MonkeyLang

/-! ## Character classes -/

/-- A blank separates tokens and stays in its line. -/
def isBlank (c : CodePoint) : Bool := c = ' ' || c = '\t' || c = '\r'

/-- A letter of the ASCII alphabet or the underscore. -/
def isIdentStart (c : CodePoint) : Bool := c.isAlpha || c = '_'

/-- A character that may continue an identifier. -/
def isIdentPart (c : CodePoint) : Bool := c.isAlphanum || c = '_'

/-! ## String bodies -/

namespace StringBody

/-- Split behind an opening quote: the body, and what is left from the closing quote on.
A backslash takes the next character with it; one that ends the text is not part of the body. -/
def split : List CodePoint → List CodePoint × List CodePoint
  | [] => ([], [])
  | c :: r =>
    if c = '"' then ([], c :: r)
    else if c = '\\' then
      match r with
      | [] => ([], [c])
      | d :: r =>
        let (body, rest) := split r
        (c :: d :: body, rest)
    else
      let (body, rest) := split r
      (c :: body, rest)

/-- The text behind a backslash and `c`. An unknown escape stands for itself. -/
def escaped (c : CodePoint) : List CodePoint :=
  match c with
  | .char 'n' => ['\n']
  | .char 't' => ['\t']
  | .char '"' => ['"']
  | .char '\\' => ['\\']
  | c => ['\\', c]

/-- The text that a body denotes. -/
def decode : List CodePoint → List CodePoint
  | [] => []
  | c :: r =>
    if c = '\\' then
      match r with
      | [] => [c]
      | d :: r => escaped d ++ decode r
    else c :: decode r

theorem split_append (s : List CodePoint) : (split s).1 ++ (split s).2 = s := by
  fun_induction split s <;> simp_all

end StringBody

/-! ## Cutting -/

/-- The head of a text: the characters it takes up and the token they spell, if any. -/
structure Lexeme where
  text : List CodePoint
  token? : Option (Token.Kind × Text)

namespace Lexeme

/-- A lexeme that separates tokens. -/
def layout (text : List CodePoint) : Lexeme := ⟨text, none⟩

/-- A lexeme whose literal is its spelling. -/
def plain (kind : Token.Kind) (text : List CodePoint) : Lexeme := ⟨text, some (kind, Text.ofList text)⟩

/-- A keyword or an identifier. -/
def word (text : List CodePoint) : Lexeme := plain (Token.Kind.ofWord (Text.ofList text)) text

/-- The longest run of characters of a class behind `c`, as the lexeme that `make` makes of it. -/
def run (p : CodePoint → Bool) (make : List CodePoint → Lexeme) (c : CodePoint) (r : List CodePoint) :
    Lexeme × List CodePoint :=
  (make (c :: r.takeWhile p), r.dropWhile p)

/-- The string lexeme behind an opening quote; at the end of the text the closing quote may
be missing. -/
def string (r : List CodePoint) : Lexeme × List CodePoint :=
  let body := (StringBody.split r).1
  let token? := some (Token.Kind.string, Text.ofList (StringBody.decode body))
  match (StringBody.split r).2 with
  | .char '"' :: rest => (⟨.char '"' :: body ++ [.char '"'], token?⟩, rest)
  | rest => (⟨.char '"' :: body, token?⟩, rest)

/-- The operator or delimiter at the head of a text, or else an illegal character. -/
def symbol (c : CodePoint) (r : List CodePoint) : Lexeme × List CodePoint :=
  match c, r with
  | .char '=', .char '=' :: r => (plain .eq ['=', '='], r)
  | .char '!', .char '=' :: r => (plain .notEq ['!', '='], r)
  | c, r => (plain ((Token.Kind.ofChar? c).getD .illegal) [c], r)

/-- The first lexeme of the text `c :: r` and the rest of the text. -/
def split (c : CodePoint) (r : List CodePoint) : Lexeme × List CodePoint :=
  if c = '\n' then (layout [c], r)
  else if isBlank c then run isBlank layout c r
  else if c = '/' ∧ r.head? = some (CodePoint.char '/') then run (· ≠ '\n') layout c r
  else if isIdentStart c then run isIdentPart word c r
  else if c.isDigit then run CodePoint.isDigit (plain .int) c r
  else if c = '"' then string r
  else symbol c r

theorem string_append (r : List CodePoint) : (string r).1.text ++ (string r).2 = .char '"' :: r := by
  have h := StringBody.split_append r
  unfold string
  split <;> simp_all

theorem symbol_append (c : CodePoint) (r : List CodePoint) :
    (symbol c r).1.text ++ (symbol c r).2 = c :: r := by
  unfold symbol
  split <;> simp [plain]

/-- Cutting loses nothing. -/
theorem split_append (c : CodePoint) (r : List CodePoint) :
    (split c r).1.text ++ (split c r).2 = c :: r := by
  unfold split
  repeat' split
  any_goals simp [run, layout, word, plain]
  · next h => subst h; exact string_append r
  · exact symbol_append c r

theorem text_ne_nil (c : CodePoint) (r : List CodePoint) : (split c r).1.text ≠ [] := by
  unfold split string symbol
  repeat' split
  all_goals simp [run, layout, word, plain]

/-- What is left is shorter than the text. -/
theorem length_rest_le (c : CodePoint) (r : List CodePoint) : (split c r).2.length ≤ r.length := by
  have h := congrArg List.length (split_append c r)
  have := List.length_pos_iff.2 (text_ne_nil c r)
  simp only [List.length_append, List.length_cons] at h
  omega

end Lexeme

end MonkeyLang
