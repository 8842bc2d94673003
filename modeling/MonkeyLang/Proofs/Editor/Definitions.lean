import MonkeyLang.Proofs.Editor.Lookup
import MonkeyLang.Proofs.Evaluation.Hashes
import MonkeyLang.Proofs.Parser.Diagnostics

/-!
# The symbols of a document

The index of a document has one symbol for each name that a let statement at the top level binds, also
where there are mistakes in the text. Of the let statements of one name the last one counts: the symbol
tells its kind, its parameters and where its name stands. The name can be read off the text there, if
lines are what stands between newlines.

* `Editor.LastLet` says which let statement counts for a name, `Editor.Shows` what is told of its value,
  `Text.HasNameAt` that a name stands at a place of a text.
* `Editor.get?_symbols_eq_some_iff` is the table of symbols as a function of the statements.
* `index_describes_last_definitions` is the result.
-/

namespace MonkeyLang

/-! ## Lines between newlines -/

namespace Text

theorem splitOn_head? (s : List CodePoint) :
    (s.splitOn (CodePoint.char '\n')).head? = some (s.takeWhile (· ≠ CodePoint.char '\n')) := by
  induction s with
  | nil => rfl
  | cons c s ih =>
      rw [List.splitOn_cons_eq_if_modifyHead]
      by_cases newline : c = CodePoint.char '\n'
      · simp [newline]
      · simp [newline, ih]

/-- The line with the number of the newlines in front of a place starts with what stands between the
last of them and the place. -/
theorem splitOn_getElem? (before behind : List CodePoint) :
    ((before ++ behind).splitOn (CodePoint.char '\n'))[before.count (.char '\n')]? =
      some (openLine before ++ behind.takeWhile (· ≠ CodePoint.char '\n')) := by
  induction before with
  | nil =>
      rw [List.nil_append, List.count_nil, ← List.head?_eq_getElem?, splitOn_head?]
      rfl
  | cons c before ih =>
      rw [List.cons_append, List.splitOn_cons_eq_if_modifyHead]
      by_cases newline : c = CodePoint.char '\n'
      · subst newline
        simpa [openLine] using ih
      · rw [List.count_cons_of_ne newline, if_neg (by simpa using newline), List.getElem?_modifyHead, ih,
          openLine]
        by_cases later : CodePoint.char '\n' ∈ before
        · rw [if_neg (List.count_pos_iff.2 later).ne', if_pos (.tail _ later)]
        · have none : CodePoint.char '\n' ∉ c :: before := by simp [later, Ne.symm newline]
          rw [if_pos (List.count_eq_zero.2 later), if_neg none, openLine_eq_self later]
          rfl

/-- Behind so many characters of a line, counted from zero as the lines are, stands the name, and
nothing beside it could be part of it. Lines end at newlines only. -/
def HasNameAt (s : List CodePoint) (p : Editor.Place) (name : List CodePoint) : Prop :=
  ∃ left right, (s.splitOn (CodePoint.char '\n'))[p.line]? = some (left ++ (name ++ right)) ∧
    left.length = p.character ∧ (∀ c ∈ left.getLast?, isIdentPart c = false) ∧ Lexeme.Apart right

theorem takeWhile_name {name behind : List CodePoint} (parts : ∀ c ∈ name, isIdentPart c) :
    (name ++ behind).takeWhile (· ≠ CodePoint.char '\n') =
      name ++ behind.takeWhile (· ≠ CodePoint.char '\n') := by
  refine List.takeWhile_append_of_pos fun c mem => decide_eq_true ?_
  rintro rfl
  exact absurd (parts _ mem) (by decide)

theorem apart_takeWhile {behind : List CodePoint} (apart : Lexeme.Apart behind) :
    Lexeme.Apart (behind.takeWhile (· ≠ CodePoint.char '\n')) := by
  cases behind with
  | nil => exact apart
  | cons c behind =>
      rw [List.takeWhile_cons]
      split
      · exact Lexeme.apart_cons (apart c rfl)
      · exact Lexeme.apart_nil

end Text

/-- A whole name stands where its position points to. -/
theorem TokenStream.NameIn.hasNameAt {before name behind : List CodePoint} {t : Token}
    (named : NameIn .start before name behind t)
    (ended : ∃ b, before.getLast? = some b ∧ isIdentPart b = false) :
    Text.HasNameAt (before ++ (name ++ behind)) (.ofPosition t.pos) name := by
  refine ⟨Text.openLine before, behind.takeWhile (· ≠ CodePoint.char '\n'), ?_, ?_,
    Text.openLine_ended ended, Text.apart_takeWhile named.apart⟩
  · rw [named.ofPosition_pos, Text.splitOn_getElem?, Text.takeWhile_name named.parts]
  · rw [named.ofPosition_pos]

/-! ## Let statements -/

namespace Editor

/-- The names that the let statements among the statements bind, in their order. -/
def boundNames (statements : List Node) : List Text :=
  statements.filterMap fun
    | .letStmt _ name _ => some name.text
    | _ => none

/-- The let statement of the name and the value is the last one of the name among the statements. -/
def LastLet (statements : List Node) (name : Name) (value : Node) : Prop :=
  ∃ before t after, statements = before ++ .letStmt t name value :: after ∧
    name.text ∉ boundNames after

theorem LastLet.exists_mem {statements : List Node} {name : Name} {value : Node}
    (last : LastLet statements name value) : ∃ t, .letStmt t name value ∈ statements := by
  obtain ⟨before, t, after, rfl, -⟩ := last
  exact ⟨t, List.mem_append_right _ (.head _)⟩

/-- What is told of a name that stands for a value: a macro and a function have their parameters, in
their order, and all else is a variable. -/
inductive Shows (name : Text) : Node → SymbolKind → Text → Prop
  | macroName {t : Option Token} {parameters : List Node} {body : Node} :
    Shows name (.macroLit t parameters body) .macroName
      (name ++ " = macro(" ++ Text.intercalate ", " (parameters.map Node.boundName) ++ ")")
  | function {t : Option Token} {parameters : List Node} {body : Node} :
    Shows name (.fnLit t parameters body) .function
      (name ++ " = fn(" ++ Text.intercalate ", " (parameters.map Node.boundName) ++ ")")
  | var {value : Node} :
    (∀ t parameters body, value ≠ .macroLit t parameters body) →
    (∀ t parameters body, value ≠ .fnLit t parameters body) →
    Shows name value .var ("let " ++ name)

theorem shows_define (name : Name) (value : Node) :
    Shows name.text value (Symbol.define name value).kind (Symbol.define name value).detail := by
  unfold Symbol.define
  dsimp only
  split
  · exact .macroName
  · exact .function
  · next notMacro notFunction => exact .var notMacro notFunction

/-- A value is told of in one way only. -/
theorem Shows.unique {name detail detail' : Text} {value : Node} {kind kind' : SymbolKind}
    (h : Shows name value kind detail) (h' : Shows name value kind' detail') :
    kind = kind' ∧ detail = detail' := by
  cases h with
  | macroName =>
      cases h' with
      | macroName => exact ⟨rfl, rfl⟩
      | var notMacro => exact absurd rfl (notMacro _ _ _)
  | function =>
      cases h' with
      | function => exact ⟨rfl, rfl⟩
      | var _ notFunction => exact absurd rfl (notFunction _ _ _)
  | var notMacro notFunction =>
      cases h' with
      | macroName => exact absurd rfl (notMacro _ _ _)
      | function => exact absurd rfl (notFunction _ _ _)
      | var => exact ⟨rfl, rfl⟩

theorem name_define (name : Name) (value : Node) : (Symbol.define name value).name = name.text := by
  unfold Symbol.define
  rfl

/-! ## The table of symbols -/

variable {statements : List Node}

/-- The symbols that the statements define, each under its name. -/
def entries (statements : List Node) : List (Text × Symbol) :=
  (statements.filterMap Symbol.ofStatement?).map fun s => (s.name, s)

theorem entries_append (before after : List Node) :
    entries (before ++ after) = entries before ++ entries after := by
  rw [entries, List.filterMap_append, List.map_append]
  rfl

theorem entries_letStmt (t : Option Token) (name : Name) (value : Node) (after : List Node) :
    entries (.letStmt t name value :: after) =
      (name.text, Symbol.define name value) :: entries after := by
  rw [← name_define name value]
  rfl

theorem names_entries (statements : List Node) :
    (entries statements).map (·.1) = boundNames statements := by
  rw [entries, List.map_map, List.map_filterMap, boundNames]
  congr 1
  funext statement
  cases statement <;> rfl

/-- The last symbol of a name comes from the last let statement of the name. -/
theorem isLast_entries_iff {key : Text} {symbol : Symbol} :
    Assoc.IsLast (entries statements) (key, symbol) ↔
      ∃ name value, LastLet statements name value ∧ name.text = key ∧
        symbol = Symbol.define name value := by
  constructor
  · rintro ⟨b, a, split, unseen⟩
    rw [entries, List.map_filterMap] at split
    obtain ⟨before, rest, rfl, -, split⟩ := List.filterMap_eq_append_iff.1 split
    obtain ⟨others, statement, after, rfl, -, defines, rfl⟩ := List.filterMap_eq_cons_iff.1 split
    cases statement with
    | letStmt t name value =>
        cases defines
        refine ⟨name, value, ⟨before ++ others, t, after, by simp, ?_⟩, rfl, rfl⟩
        rw [← names_entries, entries, List.map_filterMap]
        exact unseen
    | _ => cases defines
  · rintro ⟨name, value, ⟨before, t, after, rfl, unseen⟩, rfl, rfl⟩
    refine ⟨entries before, entries after, ?_, ?_⟩
    · rw [entries_append, entries_letStmt]
    · rwa [names_entries]

/-- In the table of a document, a name has the symbol of its last let statement. -/
theorem get?_symbols_eq_some_iff {text key : Text} {symbol : Symbol} :
    (Index.ofText text).symbols.get? key = some symbol ↔
      ∃ name value, LastLet (parse text).program.statements name value ∧ name.text = key ∧
        symbol = Symbol.define name value :=
  Assoc.get?_ofList_eq_some_iff.trans isLast_entries_iff

/-- The symbol tells of the let statement of the name and the value in the text: what kind of value it
is, its parameters, and where the name stands. -/
structure Symbol.Describes (symbol : Symbol) (text : Text) (name : Name) (value : Node) : Prop where
  called : symbol.name = name.text
  told : Shows name.text value symbol.kind symbol.detail
  token : ∃ t ∈ lex text, t.kind = .ident ∧ name = ⟨some t, t.literal⟩ ∧
    t.pos = ⟨symbol.place.line + 1, symbol.place.character + 1⟩
  stands : Text.HasNameAt text.toList symbol.place symbol.name.toList

/-- The symbol of a let statement of a text describes it. -/
theorem describes_define {text : Text} {t : Option Token} {name : Name} {value : Node}
    (mem : .letStmt t name value ∈ (parse text).program.statements) :
    (Symbol.define name value).Describes text name value := by
  have named := Parser.namedIn_of_mem_statements (TokenStream.final_ofSource text) _ mem
  obtain ⟨keyword, token, pair, isLet, ident, rfl⟩ := named t name value rfl
  obtain ⟨before, cs, behind, whole, named, ended⟩ := TokenStream.nameIn_scan pair isLet ident
  have inText : token ∈ lex text :=
    List.mem_append_left _ (pair.subset (.tail _ (.head _)))
  obtain ⟨line, column⟩ := Place.ofPosition_of_mem_lex inText
  refine ⟨name_define _ value, shows_define _ value, ⟨token, inText, ident, rfl, ?_⟩, ?_⟩
  · exact Position.mk.injEq .. ▸ ⟨line.symm, column.symm⟩
  · rw [whole, name_define, named.literal]
    exact named.hasNameAt ended

/-- A let statement is described by one symbol only. -/
theorem Symbol.Describes.eq_define {symbol : Symbol} {text : Text} {name : Name} {value : Node}
    (h : symbol.Describes text name value) : symbol = Symbol.define name value := by
  obtain ⟨symbolName, kind, ⟨line, character⟩, detail⟩ := symbol
  obtain ⟨called, told, ⟨t, -, -, rfl, pos⟩, -⟩ := h
  obtain ⟨rfl, rfl⟩ := told.unique (shows_define _ value)
  have place : Place.mk line character = Place.ofPosition t.pos := by
    rw [Place.ofPosition, pos]
    rfl
  cases called
  rw [place]
  rfl

end Editor

open Editor

/-- Whatever mistakes a text has, the index of it holds one symbol for each name that is bound by a let
statement among the statements that the text is read as, in the order in which the names first come. It
is the symbol that describes the last let statement of the name: the kind, the parameters of a macro or
a function, and the place of the name, where it is to be read. -/
theorem index_describes_last_definitions (text : Text) :
    let statements := (parse text).program.statements
    let symbols := (Index.ofText text).symbols
    symbols.keys = (boundNames statements).eraseDups ∧ symbols.keys.Nodup ∧
      ∀ key symbol, (key, symbol) ∈ symbols ↔
        ∃ name value, LastLet statements name value ∧ name.text = key ∧
          symbol.Describes text name value := by
  intro statements symbols
  have holds := Assoc.holdsLast_ofList (entries statements)
  refine ⟨?_, holds.distinct, fun key symbol => ?_⟩
  · rw [← names_entries]
    exact holds.order
  · refine (holds.last _).trans (isLast_entries_iff.trans ?_)
    constructor
    · rintro ⟨name, value, last, same, rfl⟩
      obtain ⟨t, mem⟩ := last.exists_mem
      exact ⟨name, value, last, same, describes_define mem⟩
    · rintro ⟨name, value, last, same, describes⟩
      exact ⟨name, value, last, same, describes.eq_define⟩

/-- A let statement without a name, one without a value, and a variable that becomes a macro. -/
theorem index_describes_last_definitions_mistakes :
    let text : Text := "let a = 1; let = 2;\nlet b = ); let a = macro(p, q) \x7b p \x7d"
    let a : Symbol := ⟨"a", .macroName, ⟨1, 15⟩, "a = macro(p, q)"⟩
    (Index.ofText text).symbols = [(("a" : Text), a), ("b", ⟨"b", .var, ⟨1, 4⟩, "let b"⟩)] ∧
      ∃ name value, LastLet (parse text).program.statements name value ∧ name.text = "a" ∧
        a.Describes text name value := by
  intro text a
  have table : (Index.ofText text).symbols =
      [(("a" : Text), a), ("b", ⟨"b", .var, ⟨1, 4⟩, "let b"⟩)] := by
    decide +kernel
  refine ⟨table, ((index_describes_last_definitions text).2.2 "a" a).1 ?_⟩
  rw [table]
  exact .head _

end MonkeyLang
