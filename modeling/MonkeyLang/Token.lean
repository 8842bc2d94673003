import MonkeyLang.Text

/-!
# Tokens

A token is a kind, a literal and the position of its first character. The kind decides all
that the parser does with it; the literal is the spelling, except that a string token carries
the text it denotes.

* `Position.after` is the position reached by reading a text.
* `Token.Kind.name` is the name a kind has in messages and listings.
* `Token.Kind.ofWord` tells keywords from identifiers.
-/

namespace MonkeyLang

/-- A place in a source text. Lines and columns count from one, columns in code points. -/
structure Position where
  line : Nat
  column : Nat
deriving DecidableEq, Repr

namespace Position

/-- The first place of every text. -/
def start : Position := ⟨1, 1⟩

instance : Inhabited Position := ⟨start⟩

/-- The place behind the character `c`: a newline opens a line, any other character a column. -/
def next (p : Position) (c : CodePoint) : Position :=
  if c = '\n' then ⟨p.line + 1, 1⟩ else ⟨p.line, p.column + 1⟩

/-- The place behind the text `cs`. -/
def after (p : Position) (cs : List CodePoint) : Position := cs.foldl next p

@[simp] theorem after_nil (p : Position) : p.after [] = p := rfl

@[simp] theorem after_cons (p : Position) (c : CodePoint) (cs : List CodePoint) :
    p.after (c :: cs) = (p.next c).after cs := rfl

theorem after_append (p : Position) (cs ds : List CodePoint) :
    p.after (cs ++ ds) = (p.after cs).after ds :=
  List.foldl_append

end Position

/-- What a token is. -/
inductive Token.Kind where
  | illegal | eof
  | ident | int | string
  | assign | plus | minus | bang | asterisk | slash | lt | gt | eq | notEq
  | comma | semicolon | colon | lparen | rparen | lbrace | rbrace | lbracket | rbracket
  | kwFn | kwLet | kwTrue | kwFalse | kwIf | kwElse | kwReturn | kwMacro
deriving DecidableEq, Repr

namespace Token.Kind

/-- The name of a kind: capitals for classes of tokens, the spelling for operators. -/
def name : Kind → String
  | illegal => "ILLEGAL" | eof => "EOF"
  | ident => "IDENT" | int => "INT" | string => "STRING"
  | assign => "=" | plus => "+" | minus => "-" | bang => "!" | asterisk => "*" | slash => "/"
  | lt => "<" | gt => ">" | eq => "==" | notEq => "!="
  | comma => "," | semicolon => ";" | colon => ":" | lparen => "(" | rparen => ")"
  | lbrace => "\x7b" | rbrace => "\x7d" | lbracket => "[" | rbracket => "]"
  | kwFn => "FUNCTION" | kwLet => "LET" | kwTrue => "TRUE" | kwFalse => "FALSE"
  | kwIf => "IF" | kwElse => "ELSE" | kwReturn => "RETURN" | kwMacro => "MACRO"

/-- The keywords and their kinds. -/
def keywords : List (Text × Kind) :=
  [("fn", kwFn), ("let", kwLet), ("true", kwTrue), ("false", kwFalse), ("if", kwIf),
    ("else", kwElse), ("return", kwReturn), ("macro", kwMacro)]

/-- The kind of a word: its keyword, or an identifier. -/
def ofWord (word : Text) : Kind := (keywords.lookup word).getD ident

/-- The kind of an operator or delimiter of one character. -/
def ofChar? : CodePoint → Option Kind
  | .char '=' => some assign | .char '+' => some plus | .char '-' => some minus | .char '!' => some bang
  | .char '*' => some asterisk | .char '/' => some slash | .char '<' => some lt | .char '>' => some gt
  | .char ',' => some comma | .char ';' => some semicolon | .char ':' => some colon
  | .char '(' => some lparen | .char ')' => some rparen
  | .char '\x7b' => some lbrace | .char '\x7d' => some rbrace
  | .char '[' => some lbracket | .char ']' => some rbracket
  | _ => none

end Token.Kind

/-- A token of a source text. -/
structure Token where
  kind : Token.Kind
  literal : Text
  pos : Position := Position.start
deriving DecidableEq, Repr

end MonkeyLang
