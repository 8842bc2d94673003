import MonkeyLang.Editor.Index
import MonkeyLang.Editor.Word

/-!
# Documents of an editor

The documents that are open in an editor, each with its text and the index of that text. Opening,
changing and closing a document publishes its diagnostics; hovering, completion and the list of
symbols ask for the latest text only.
-/

namespace MonkeyLang

namespace Editor

/-- A document: its text and the index of it. -/
structure Document where
  text : Text
  index : Index

/-- The open documents by address. -/
abbrev Documents := Assoc Text Document

/-- A stretch of a document. -/
structure Range where
  start : Place
  stop : Place
deriving DecidableEq, Repr

/-- The stretch of some characters behind a place. -/
def Place.span (p : Place) (length : Nat) : Range := ⟨p, ⟨p.line, p.character + length⟩⟩

/-- A mistake as an editor marks it. -/
structure Marker where
  message : Text
  range : Range
deriving DecidableEq, Repr

namespace Marker

/-- The severity of an error. -/
def severity : Nat := 1

/-- Who marks the mistakes. -/
def source : String := "monkey-ls"

/-- A diagnostic marks one character. -/
def ofDiagnostic (d : Diagnostic) : Marker := ⟨d.message, (Place.ofPosition d.pos).span 1⟩

end Marker

/-- The markers of a document that are shown from now on. -/
structure Publication where
  address : Text
  markers : List Marker
deriving DecidableEq, Repr

namespace Documents

/-- The document has this text now. -/
def update (docs : Documents) (address text : Text) : Publication × Documents :=
  let index := Index.ofText text
  (⟨address, index.diagnostics.map Marker.ofDiagnostic⟩, Assoc.insert address ⟨text, index⟩ docs)

/-- The document is no longer open. -/
def close (docs : Documents) (address : Text) : Publication × Documents :=
  (⟨address, []⟩, Assoc.erase address docs)

/-- The text for the word at a place. -/
def hover? (docs : Documents) (address : Text) (place : Place) : Option Text := do
  let document ← Assoc.get? address docs
  let word ← wordAt document.text place.line place.character
  document.index.hover? word

end Documents

/-- What a completion inserts. -/
inductive CompletionKind where
  | function | definition | keyword
deriving DecidableEq, Repr

/-- The number of a kind of completions. -/
def CompletionKind.number : CompletionKind → Nat
  | function => 3
  | definition => 6
  | keyword => 14

/-- A completion that an editor offers. -/
structure Completion where
  label : Text
  kind : CompletionKind
  detail? : Option Text
deriving DecidableEq, Repr

namespace Completion

/-- The completion of a symbol. -/
def ofSymbol (s : Symbol) : Completion :=
  ⟨s.name, if s.kind = .var then .definition else .function, some s.detail⟩

/-- The completions that every document has: builtin functions, then keywords. -/
def standard : List Completion :=
  signatures.map (fun (name, signature) => ⟨name, .function, some signature⟩) ++
    Token.Kind.keywords.map fun (word, _) => ⟨word, .keyword, none⟩

end Completion

/-- The completions for a document: the standard ones, then its symbols. -/
def Documents.completions (docs : Documents) (address : Text) : List Completion :=
  Completion.standard ++ match Assoc.get? address docs with
    | some document => document.index.symbols.map fun (_, s) => Completion.ofSymbol s
    | none => []

/-- The number of a kind of symbols. -/
def SymbolKind.number : SymbolKind → Nat
  | function => 12
  | var => 13
  | macroName => 25

/-- The stretch of a symbol's name. -/
def Symbol.range (s : Symbol) : Range := s.place.span s.name.length

/-- The symbols of an open document. -/
def Documents.symbols? (docs : Documents) (address : Text) : Option (List Symbol) :=
  (Assoc.get? address docs).map fun document => document.index.symbols.map (·.2)

end Editor

end MonkeyLang
