import MonkeyLang.Parser.Cursor
import MonkeyLang.Decimal

/-!
# The parser

Expressions are read by precedence climbing: an operand, then every operator that binds tighter
than the place it stands in. The constructs are written over a reader `expr` of expressions for
the places inside them; `Parser.expression` ties the knot. Its first argument bounds how deep
expressions nest, and since each level of nesting takes a token of its own, the number of tokens
is always enough.

A mistake does not end the reading. It is reported, the construct it stands in becomes a hole,
and the text behind it is read on.

* `parse` reads a source text, `parseTokens` a stream of tokens.
* `Parsing.errors` are the messages, in the order of their report.
-/

namespace MonkeyLang

namespace Parser

/-! ## Precedence -/

/-- How tightly an operator binds, loosest first. -/
inductive Level where
  | lowest | equality | comparison | sum | product | unary | call | index
deriving DecidableEq, Repr

/-- The number of looser levels. -/
def Level.rank : Level → Nat
  | lowest => 0
  | equality => 1
  | comparison => 2
  | sum => 3
  | product => 4
  | unary => 5
  | call => 6
  | index => 7

/-- The level at which a token continues an expression; `lowest` if it does not. -/
def Level.ofKind : Token.Kind → Level
  | .eq | .notEq => equality
  | .lt | .gt => comparison
  | .plus | .minus => sum
  | .asterisk | .slash => product
  | .lparen => call
  | .lbracket => index
  | _ => lowest

/-- Does a token of this kind continue an operand that stands at `level`? -/
def Level.admits (level : Level) (kind : Token.Kind) : Bool := level.rank < (ofKind kind).rank

/-! ## Lists -/

/-- Items that each follow a comma. -/
def afterCommas {α : Type} (item : Parse α) : Nat → Parse (List α)
  | 0 => return []
  | n + 1 => do
    if ← accept .comma then
      let first ← item
      let others ← afterCommas item n
      return first :: others
    else return []

/-- One item or more with commas between them. -/
def separated {α : Type} (item : Parse α) : Parse (List α) := do
  let first ← item
  let others ← afterCommas item (← ahead)
  return first :: others

/-- Items up to a closing token, possibly none. -/
def listUntil {α : Type} (item : Parse α) (close : Token.Kind) : Parse (List α) := do
  if ← accept close then return []
  else
    let items ← separated item
    let _ ← expect close
    return items

/-- Statements as long as the next token is of a kind that `more` allows. One that breaks off
is left out. -/
def statementsWhile (more : Token.Kind → Bool) (statement : Parse Node) : Nat → Parse (List Node)
  | 0 => return []
  | n + 1 => do
    if more (← peek).kind then
      let first ← optional statement
      let others ← statementsWhile more statement n
      return first.toList ++ others
    else return []

/-! ## Statements and blocks -/

section Constructs

variable (expr : Level → Parse Node)

/-- A let statement. It breaks off before it has a name and an equals sign. -/
def letStatement : Parse Node := do
  let start ← advance
  let name ← expect .ident
  let _ ← expect .assign
  let value ← expr .lowest
  let _ ← accept .semicolon
  return .letStmt start ⟨name, name.literal⟩ value

/-- A return statement. -/
def returnStatement : Parse Node := do
  let start ← advance
  let value ← expr .lowest
  let _ ← accept .semicolon
  return .returnStmt start value

/-- An expression in the place of a statement. -/
def expressionStatement : Parse Node := do
  let start ← peek
  let value ← expr .lowest
  let _ ← accept .semicolon
  return .exprStmt start value

/-- Any statement. The semicolon behind it may be left out. -/
def statement : Parse Node := do
  match (← peek).kind with
  | .kwLet => letStatement expr
  | .kwReturn => returnStatement expr
  | _ => expressionStatement expr

/-- A block. It ends at its closing brace, or with a report at the end of the text. -/
def block : Parse Node := do
  let brace ← expect .lbrace
  let statements ← statementsWhile (fun k => k != .rbrace && k != .eof) (statement expr) (← ahead)
  let _ ← optional (expect .rbrace)
  return .block brace statements

/-! ## Operands -/

/-- An integer literal, a hole if it has too many digits. -/
def integer (token : Token) : Parse Node := do
  if Decimal.longest < token.literal.length then
    report (.overlong token.literal) token
    return .missing
  else return .int token (Decimal.value token.literal.chars)

/-- An operator before its operand. -/
def unary (token : Token) : Parse Node := do
  let operand ← expr .unary
  return .unary token token.literal operand

/-- An expression between parentheses, the first of which has been read. -/
def grouped : Parse Node := do
  let inner ← expr .lowest
  let _ ← expect .rparen
  return inner

/-- A conditional, whose keyword has been read. -/
def conditional (token : Token) : Parse Node := do
  let _ ← expect .lparen
  let condition ← expr .lowest
  let _ ← expect .rparen
  let consequence ← block expr
  if ← accept .kwElse then
    let alternative ← block expr
    return .ifElse token condition consequence alternative
  else return .ifElse token condition consequence .missing

/-- A parameter. -/
def parameter : Parse Node := do
  let name ← expect .ident
  return .ident name name.literal

/-- The parameters and the body of a function or macro. -/
def parametersAndBody : Parse (List Node × Node) := do
  let _ ← expect .lparen
  let parameters ← listUntil parameter .rparen
  let body ← block expr
  return (parameters, body)

/-- The pairs of a hash up to its closing brace. A comma may stand behind the last one. -/
def pairs : Nat → Parse (List (Node × Node))
  | 0 => return []
  | n + 1 => do
    if ← accept .rbrace then return []
    else
      let key ← expr .lowest
      let _ ← expect .colon
      let value ← expr .lowest
      if ! (← nextIs .rbrace) then
        let _ ← expect .comma
      let others ← pairs n
      return (key, value) :: others

/-- The operand that starts with a token, which has been read; `none` if no operand does. -/
def operand? (token : Token) : Option (Parse Node) :=
  match token.kind with
  | .ident => some (return .ident token token.literal)
  | .int => some (integer token)
  | .string => some (return .str token token.literal)
  | .kwTrue => some (return .bool token true)
  | .kwFalse => some (return .bool token false)
  | .bang | .minus => some (unary expr token)
  | .lparen => some (grouped expr)
  | .kwIf => some (conditional expr token)
  | .kwFn => some do
    let (parameters, body) ← parametersAndBody expr
    return .fnLit token parameters body
  | .kwMacro => some do
    let (parameters, body) ← parametersAndBody expr
    return .macroLit token parameters body
  | .lbracket => some do return .array token (← listUntil (expr .lowest) .rbracket)
  | .lbrace => some do return .hash token (← pairs expr ((← ahead) + 1))
  | _ => none

/-! ## Operators -/

/-- What the operator `token`, which has been read, makes of the operand to its left. -/
def extend (token : Token) (left : Node) : Parse Node :=
  match token.kind with
  | .lparen => do return .call token left (← listUntil (expr .lowest) .rparen)
  | .lbracket => do
    let position ← expr .lowest
    let _ ← expect .rbracket
    return .index token left position
  | kind => do
    let right ← expr (Level.ofKind kind)
    return .binary token left token.literal right

/-- Extend an operand by every operator that binds tighter than `level`. -/
def climb (level : Level) : Nat → Node → Parse Node
  | 0, left => return left
  | n + 1, left => do
    if level.admits (← peek).kind then
      let token ← advance
      let left ← orMissing (extend expr token left)
      climb level n left
    else return left

end Constructs

/-- An expression at a level of precedence, with at most `depth` expressions inside each other. -/
def expression (depth : Nat) (level : Level) : Parse Node :=
  match depth with
  | 0 => return .missing
  | depth + 1 => do
    let token ← advance
    match operand? (expression depth) token with
    | none =>
      report (.noOperand token.kind) token
      return .missing
    | some operand =>
      let left ← orMissing operand
      climb (expression depth) level (← ahead) left

/-- A program: statements up to the end of the text. -/
def program : Parse Node := do
  let size ← ahead
  return .program (← statementsWhile (· != .eof) (statement (expression (size + 1))) size)

end Parser

/-! ## Reading a text -/

/-- What a text was read as, and what is wrong with it in the order it was noticed. -/
structure Parsing where
  program : Node
  diagnostics : List Diagnostic
deriving Repr

/-- The messages of the diagnostics. -/
def Parsing.errors (p : Parsing) : List Text := p.diagnostics.map Diagnostic.message

/-- Read a stream of tokens as a program. -/
def parseTokens (tokens : TokenStream) : Parsing :=
  let (program?, cursor) := Parser.program.run ⟨tokens, []⟩
  ⟨program?.getD .missing, cursor.reported.reverse⟩

/-- Read a source text as a program. -/
def parse (source : Text) : Parsing := parseTokens (TokenStream.ofSource source)

end MonkeyLang
