import MonkeyLang.TokenStream
import MonkeyLang.Node

/-!
# Reading tokens

A parser reads a stream of tokens and reports what is wrong with them. It never stops at a
mistake: `Parse α` either yields an `α` or breaks off the construct it was reading, and in both
cases keeps the tokens it has read and the diagnostics it has made.

* `Diagnostic` is a mistake and the place it was noticed at; `Mistake.message` words it.
* `expect` reads a token of a given kind or breaks off.
* `orMissing` turns a construct that broke off into a hole in the tree.
-/

namespace MonkeyLang

/-- What can be wrong with a text. -/
inductive Mistake where
  | unexpected (wanted got : Token.Kind)
  /-- No expression starts with such a token. -/
  | noOperand (got : Token.Kind)
  /-- An integer literal with more digits than can be read. -/
  | overlong (literal : Text)
deriving DecidableEq, Repr

/-- The wording of a mistake. -/
def Mistake.message : Mistake → Text
  | unexpected wanted got => s!"expected next token to be {wanted.name}, got {got.name} instead"
  | noOperand got => s!"no prefix parse function for {got.name} found"
  | overlong literal => "could not parse '" ++ literal ++ "' as integer"

/-- A mistake and the place of the token it was noticed at. -/
structure Diagnostic where
  mistake : Mistake
  pos : Position
deriving DecidableEq, Repr

/-- The wording of a diagnostic. -/
def Diagnostic.message (d : Diagnostic) : Text := d.mistake.message

namespace Parser

/-- The tokens still to be read, and the diagnostics made so far, the latest first. -/
structure Cursor where
  tokens : TokenStream
  reported : List Diagnostic
deriving DecidableEq, Repr

/-- A reading of tokens: it yields an `α` or breaks off. -/
abbrev Parse := OptionT (StateM Cursor)

/-- The token to be read next, which stays unread. -/
def peek : Parse Token := do return (← get).tokens.peek

/-- The number of tokens before the end marker. -/
def ahead : Parse Nat := do return (← get).tokens.unread.length

/-- Read a token. The end marker can be read any number of times. -/
def advance : Parse Token := do
  let token ← peek
  modify fun c => { c with tokens := c.tokens.tail }
  return token

/-- Report a mistake noticed at a token. -/
def report (mistake : Mistake) (token : Token) : Parse Unit :=
  modify fun c => { c with reported := ⟨mistake, token.pos⟩ :: c.reported }

/-- Is the next token of this kind? -/
def nextIs (kind : Token.Kind) : Parse Bool := do return (← peek).kind == kind

/-- Read a token of this kind, or report the next one and break off. -/
def expect (kind : Token.Kind) : Parse Token := do
  let token ← peek
  if token.kind = kind then advance
  else
    report (.unexpected kind token.kind) token
    failure

/-- Read a token of this kind if it is the next one. -/
def accept (kind : Token.Kind) : Parse Bool := do
  if ← nextIs kind then
    let _ ← advance
    return true
  else return false

/-- A construct that breaks off leaves a hole. -/
def orMissing (construct : Parse Node) : Parse Node := construct <|> pure .missing

end Parser

end MonkeyLang
