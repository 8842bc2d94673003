import MonkeyLang.Assoc
import MonkeyLang.Node.Render
import MonkeyLang.Parser

/-!
# The index of a document

What an editor shows of a document without evaluating it: the names that its top-level let
statements define, and the mistakes in it. Since the parser reads on behind a mistake, a document
that is being typed has an index too. Positions count from zero here.

* `Index.ofText` makes the index.
* `Index.hover?` is the text for a word.
-/

namespace MonkeyLang

namespace Editor

/-- A position in a document, counted from zero. -/
structure Place where
  line : Nat
  character : Nat
deriving DecidableEq, Repr

/-- The position of a token. -/
def Place.ofPosition (p : Position) : Place := ⟨p.line - 1, p.column - 1⟩

/-- What a name stands for. -/
inductive SymbolKind where
  | var | function | macroName
deriving DecidableEq, Repr

/-- The name of a kind of symbols. -/
def SymbolKind.name : SymbolKind → String
  | var => "var"
  | function => "function"
  | macroName => "macro"

/-- A name that a document defines. -/
structure Symbol where
  name : Text
  kind : SymbolKind
  place : Place
  detail : Text
deriving DecidableEq, Repr

/-- The names that a document defines, in the order in which they first come, and the mistakes
in it. -/
structure Index where
  symbols : Assoc Text Symbol
  diagnostics : List Diagnostic
deriving Repr

/-- The parameters of a function or a macro in one line. -/
def parameterText (parameters : List Node) : Text :=
  Node.commaSep (parameters.map Node.boundName)

/-- The symbol that a let statement of a name and a value defines. -/
def Symbol.define (name : Name) (value : Node) : Symbol :=
  let place := (name.tok.map fun t => Place.ofPosition t.pos).getD ⟨0, 0⟩
  let (kind, detail) := match value with
    | .macroLit _ ps _ => (.macroName, name.text ++ " = macro(" ++ parameterText ps ++ ")")
    | .fnLit _ ps _ => (.function, name.text ++ " = fn(" ++ parameterText ps ++ ")")
    | _ => (.var, "let " ++ name.text)
  ⟨name.text, kind, place, detail⟩

/-- The symbol that a statement defines, if it is a let statement. -/
def Symbol.ofStatement? : Node → Option Symbol
  | .letStmt _ name value => some (Symbol.define name value)
  | _ => none

/-- The table of symbols, of which the last with a name counts. -/
def symbolTable (symbols : List Symbol) : Assoc Text Symbol :=
  Assoc.ofList (symbols.map fun s => (s.name, s))

/-- The index of a text. -/
def Index.ofText (text : Text) : Index :=
  let parsing := parse text
  ⟨symbolTable (parsing.program.statements.filterMap Symbol.ofStatement?), parsing.diagnostics⟩

/-- What the builtin functions and forms are for. -/
def signatures : List (Text × Text) :=
  [("len", "len(value) -> length of a string or array"),
    ("first", "first(array) -> first element or null"),
    ("last", "last(array) -> last element or null"),
    ("rest", "rest(array) -> new array without the first element"),
    ("push", "push(array, value) -> new array with value appended"),
    ("puts", "puts(values...) -> print each value, returns null"),
    ("quote", "quote(expression) -> unevaluated AST fragment"),
    ("unquote", "unquote(expression) -> splice a value into a quote")]

/-- The text for a symbol. -/
def Symbol.hover (s : Symbol) : Text :=
  s.detail ++ " (" ++ s.kind.name ++ ", defined at " ++ toString (s.place.line + 1) ++ ":" ++
    toString (s.place.character + 1) ++ ")"

/-- The text for a word: a signature, or else a definition, or else a keyword. -/
def Index.hover? (index : Index) (word : Text) : Option Text :=
  match signatures.lookup word with
  | some signature => some signature
  | none => match index.symbols.get? word with
    | some symbol => some symbol.hover
    | none => if (Token.Kind.keywords.lookup word).isSome then some ("keyword " ++ word) else none

end Editor

end MonkeyLang
