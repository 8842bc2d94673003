import MonkeyLang.Lexeme

/-!
# Token streams

The tokens of a source text, with the end marker that stands behind the last character. A
stream may be read past its end: it then gives the end marker again and again.

* `TokenStream.ofSource` lexes a text; `lex` lists the tokens with the end marker.
* `TokenStream.next` reads one token.
-/

namespace MonkeyLang

/-- Tokens still to be read, and the end marker behind them. -/
structure TokenStream where
  unread : List Token
  final : Token
deriving DecidableEq, Repr

namespace TokenStream

/-- The tokens of the text `s`, whose first character stands at `p`. -/
def scan (p : Position) (s : List CodePoint) : TokenStream :=
  match s with
  | [] => ⟨[], ⟨.eof, "", p⟩⟩
  | c :: r =>
    let later := scan (p.after (Lexeme.split c r).1.text) (Lexeme.split c r).2
    match (Lexeme.split c r).1.token? with
    | none => later
    | some (kind, literal) => { later with unread := ⟨kind, literal, p⟩ :: later.unread }
termination_by s.length
decreasing_by exact Nat.lt_succ_of_le (Lexeme.length_rest_le c r)

/-- The tokens of a source text. -/
def ofSource (source : Text) : TokenStream := scan Position.start source.toList

/-- All tokens, the end marker last. -/
def toList (s : TokenStream) : List Token := s.unread ++ [s.final]

/-- The token to be read next. -/
def peek (s : TokenStream) : Token := s.unread.headD s.final

/-- The stream behind its next token. -/
def tail (s : TokenStream) : TokenStream := { s with unread := s.unread.tail }

/-- Read one token. -/
def next (s : TokenStream) : Token × TokenStream := (s.peek, s.tail)

/-- Read `n` tokens. -/
def take : Nat → TokenStream → List Token
  | 0, _ => []
  | n + 1, s => s.peek :: take n s.tail

/-- The stream of which only the end marker is left. -/
def exhausted (s : TokenStream) : TokenStream := { s with unread := [] }

/-- An exhausted stream gives the end marker every time. -/
theorem take_exhausted (s : TokenStream) (n : Nat) :
    take n s.exhausted = List.replicate n s.final := by
  induction n with
  | zero => rfl
  | succ n ih => simpa [take, peek, tail, exhausted, List.replicate_succ] using ih

end TokenStream

/-- All tokens of a source text, the end marker last. -/
def lex (source : Text) : List Token := (TokenStream.ofSource source).toList

end MonkeyLang
