import MonkeyLang.Editor.Index
import MonkeyLang.Editor.Word
import MonkeyLang.Proofs.Lexing.Places
import MonkeyLang.Proofs.Parser.Names

/-!
# Looking up a symbol at its place

The index counts the lines of a document by its newlines, and the lookup of a word cuts it at all
line breaks that Unicode has. The two agree on documents with plain lines, which a newline ends,
alone or behind a carriage return: there every symbol is the word at its place.

* `Text.hasPlainLines` decides whether a document is of this kind.
* `Editor.symbol_is_word_at_place` is the agreement of the index and the lookup.
* `Editor.symbol_lost_behind_form_feed`: another line break in a comment breaks it.
-/

namespace MonkeyLang

/-! ## Lines -/

namespace Text

/-- Every line ends at a newline, alone or behind a carriage return. -/
def hasPlainLines : List CodePoint → Bool
  | [] => true
  | .char '\r' :: .char '\n' :: r => hasPlainLines r
  | c :: r => (! isLineBreak c || c = '\n') && hasPlainLines r

/-- The first line, empty in the empty text. -/
def firstLine (s : List CodePoint) : List CodePoint := (editorLines s).headD []

section

variable {c : CodePoint} {s : List CodePoint}

theorem editorLines_cons (inside : isLineBreak c = false) :
    editorLines (c :: s) = consFirst c (editorLines s) := by
  have notReturn : c ≠ '\r' := by
    rintro rfl
    cases inside
  rw [editorLines, if_neg (Bool.eq_false_iff.1 inside)]
  exact fun _ return_ => absurd return_ notReturn

theorem firstLine_cons (inside : isLineBreak c = false) :
    firstLine (c :: s) = c :: firstLine s := by
  rw [firstLine, firstLine, editorLines_cons inside]
  cases editorLines s <;> rfl

theorem editorLines_head? (inside : isLineBreak c = false) :
    (editorLines (c :: s)).head? = some (firstLine (c :: s)) := by
  rw [firstLine, editorLines_cons inside]
  cases editorLines s <;> rfl

theorem firstLine_cons_of_break (ends : isLineBreak c) : firstLine (c :: s) = [] := by
  rw [firstLine]
  unfold editorLines
  split <;> simp_all

theorem isLineBreak_of_isIdentPart (part : isIdentPart c) : isLineBreak c = false := by
  refine Bool.eq_false_iff.2 fun ends => ?_
  have codes : c.toNat ∈ [0x0a, 0x0b, 0x0c, 0x0d, 0x1c, 0x1d, 0x1e, 0x85, 0x2028, 0x2029] :=
    List.contains_iff_mem.1 ends
  obtain ⟨code, mem, same⟩ : ∃ code ∈
      [0x0a, 0x0b, 0x0c, 0x0d, 0x1c, 0x1d, 0x1e, 0x85, 0x2028, 0x2029], c = CodePoint.ofNat code :=
    ⟨c.toNat, codes, (CodePoint.ofNat_toNat c).symm⟩
  have none : ∀ code ∈ [0x0a, 0x0b, 0x0c, 0x0d, 0x1c, 0x1d, 0x1e, 0x85, 0x2028, 0x2029],
      isIdentPart (CodePoint.ofNat code) = false := by decide
  rw [same, none code mem] at part
  cases part

/-- A name at the start of a text is the start of its first line. -/
theorem firstLine_name {name behind : List CodePoint} (parts : ∀ c ∈ name, isIdentPart c) :
    firstLine (name ++ behind) = name ++ firstLine behind := by
  induction name with
  | nil => rfl
  | cons c name ih =>
      rw [List.cons_append, firstLine_cons (isLineBreak_of_isIdentPart (parts c (.head _))),
        ih fun d mem => parts d (.tail _ mem), List.cons_append]

theorem apart_firstLine {behind : List CodePoint} (apart : Lexeme.Apart behind) :
    Lexeme.Apart (firstLine behind) := by
  cases behind with
  | nil => exact apart
  | cons c behind =>
      cases ends : isLineBreak c with
      | true =>
          rw [firstLine_cons_of_break ends]
          exact Lexeme.apart_nil
      | false =>
          rw [firstLine_cons ends]
          exact Lexeme.apart_cons (apart c rfl)

end

theorem getElem?_consFirst {c : CodePoint} {lines : List (List CodePoint)} {n : Nat} {line : List CodePoint}
    (at_ : lines[n]? = some line) :
    (consFirst c lines)[n]? = some (if n = 0 then c :: line else line) := by
  cases lines with
  | nil => cases at_
  | cons first lines => cases n <;> simp_all [consFirst]

/-- In front of a text with plain lines stands a newline or no line break. -/
theorem hasPlainLines_cons {c : CodePoint} {s : List CodePoint}
    (other : ∀ r, c = '\r' → s = .char '\n' :: r → False) (plain : hasPlainLines (c :: s)) :
    (isLineBreak c = false ∨ c = '\n') ∧ hasPlainLines s := by
  rw [hasPlainLines, Bool.and_eq_true] at plain
  · simpa using plain
  · exact other

/-- In a text with plain lines, the line of a place is found by counting the newlines before it,
and starts with what stands between the last of them and the place. -/
theorem editorLines_getElem? {before : List CodePoint} {c : CodePoint} {behind : List CodePoint}
    (plain : hasPlainLines (before ++ c :: behind)) (inside : isLineBreak c = false) :
    (editorLines (before ++ c :: behind))[before.count (.char '\n')]? =
      some (openLine before ++ firstLine (c :: behind)) := by
  -- The induction follows the cutting; a line end of two characters does not end at the place.
  have apart {d : CodePoint} {r : List CodePoint} (other : ∀ r', d = '\r' → r = .char '\n' :: r' → False) :
      ∀ r', d = '\r' → r ++ c :: behind = .char '\n' :: r' → False := by
    intro r' return_ newline
    cases r with
    | nil =>
        cases newline
        cases inside
    | cons e r =>
        cases newline
        exact other r return_ rfl
  fun_induction editorLines before with
  | case1 =>
      rw [List.nil_append, List.count_nil, ← List.head?_eq_getElem?, editorLines_head? inside]
      rfl
  | case2 r ih =>
      rw [List.cons_append, List.cons_append, hasPlainLines] at plain
      have later := ih plain
      simpa [editorLines, openLine] using later
  | case3 d r other ends ih =>
      obtain ⟨plainHere, plain⟩ := hasPlainLines_cons (apart other) plain
      obtain rfl := plainHere.resolve_left (by simp [ends])
      simpa [editorLines, openLine, ends] using ih plain
  | case4 d r other inner ih =>
      have later := ih (hasPlainLines_cons (apart other) plain).2
      have notNewline : d ≠ '\n' := by
        rintro rfl
        exact inner rfl
      rw [List.cons_append, editorLines_cons (Bool.eq_false_iff.2 inner),
        List.count_cons_of_ne notNewline, getElem?_consFirst later]
      by_cases first : CodePoint.char '\n' ∈ r
      · rw [if_neg (List.count_pos_iff.2 first).ne', openLine, if_pos (.tail _ first)]
      · have none : CodePoint.char '\n' ∉ d :: r := by simp [first, notNewline.symm]
        rw [if_pos (List.count_eq_zero.2 first), openLine_eq_self first, openLine_eq_self none,
          List.cons_append]

end Text

/-! ## Words -/

namespace Editor

/-- A whole name in a line is the word at each of its places, and right behind it. -/
theorem wordInLine_name {before name behind : List CodePoint} (parts : ∀ c ∈ name, isIdentPart c)
    (ended : ∀ c ∈ before.getLast?, isIdentPart c = false) (apart : Lexeme.Apart behind) {j : Nat}
    (inside : j ≤ name.length) :
    wordInLine (before ++ (name ++ behind)) (before.length + j) = name := by
  have front : (before ++ (name ++ behind)).take (before.length + j) = before ++ name.take j := by
    rw [List.take_length_add_append, List.take_append_of_le_length inside]
  have back : (before ++ (name ++ behind)).drop (before.length + j) = name.drop j ++ behind := by
    rw [List.drop_length_add_append, List.drop_append_of_le_length inside]
  have left : (before ++ name.take j).reverse.takeWhile isWordChar = (name.take j).reverse := by
    rw [List.reverse_append]
    refine Lexeme.takeWhile_append (fun c mem => ?_) fun c head => ?_
    · exact parts c (List.mem_of_mem_take (List.mem_reverse.1 mem))
    · exact ended c (by rwa [List.head?_reverse] at head)
  have right : (name.drop j ++ behind).takeWhile isWordChar = name.drop j :=
    Lexeme.takeWhile_append (fun c mem => parts c (List.mem_of_mem_drop mem)) apart
  rw [wordInLine, front, back, left, right, List.reverse_reverse, List.take_append_drop]

end Editor

/-- The position of a name, counted from zero, tells the newlines before it and what stands between the
last of them and the name. -/
theorem TokenStream.NameIn.ofPosition_pos {before name behind : List CodePoint} {t : Token}
    (named : NameIn .start before name behind t) :
    Editor.Place.ofPosition t.pos = ⟨before.count (.char '\n'), (Text.openLine before).length⟩ := by
  rw [Editor.Place.ofPosition, named.pos, Position.line_after, Position.column_after_start]
  simp [Position.start]

/-- If a text ends with something that is no part of a name, so does its last line. -/
theorem Text.openLine_ended {before : List CodePoint}
    (ended : ∃ b, before.getLast? = some b ∧ isIdentPart b = false) :
    ∀ c ∈ (openLine before).getLast?, isIdentPart c = false := by
  intro c last
  obtain ⟨b, final, outside⟩ := ended
  obtain ⟨front, split⟩ := openLine_suffix before
  rw [← split, List.getLast?_append, Option.mem_def.1 last] at final
  cases final
  exact outside

namespace Editor

/-- A name in a text with plain lines is found where the position in front of it points to. -/
theorem wordAt_name {text : Text} {before name behind : List CodePoint} {t : Token}
    (plain : Text.hasPlainLines text.toList)
    (whole : text.toList = before ++ (name ++ behind))
    (named : TokenStream.NameIn .start before name behind t)
    (ended : ∃ b, before.getLast? = some b ∧ isIdentPart b = false) {j : Nat}
    (inside : j ≤ name.length) :
    wordAt text (Place.ofPosition t.pos).line ((Place.ofPosition t.pos).character + j) =
      some t.literal := by
  have literal : Text.ofList name = t.literal := by
    rw [← named.literal, Text.ofList_toList]
  have row : (Text.editorLines text.toList)[before.count (.char '\n')]? =
      some (Text.openLine before ++ (name ++ Text.firstLine behind)) := by
    cases name with
    | nil => exact absurd rfl named.filled
    | cons c name =>
        rw [whole] at plain ⊢
        have inner := Text.isLineBreak_of_isIdentPart (named.parts c (.head _))
        rw [← Text.firstLine_name named.parts]
        exact Text.editorLines_getElem? plain inner
  have word : wordInLine (Text.openLine before ++ (name ++ Text.firstLine behind))
      ((Text.openLine before).length + j) = name :=
    wordInLine_name named.parts (Text.openLine_ended ended) (Text.apart_firstLine named.apart) inside
  unfold wordAt
  rw [named.ofPosition_pos, row]
  dsimp only
  rw [word]
  cases name with
  | nil => exact absurd rfl named.filled
  | cons c name => exact congrArg some literal

/-- What a let statement defines has the name and the place of its identifier. -/
theorem Symbol.ofStatement?_named {tokens : List Token} {statement : Node} {symbol : Symbol}
    (named : Parser.NamedIn tokens statement) (defines : ofStatement? statement = some symbol) :
    ∃ l t : Token, [l, t] <:+: tokens ∧ l.kind = .kwLet ∧ t.kind = .ident ∧
      symbol.name = t.literal ∧ symbol.place = Place.ofPosition t.pos := by
  cases statement with
  | letStmt token name value =>
      obtain ⟨l, t, found, keyword, ident, rfl⟩ := named token name value rfl
      cases defines
      exact ⟨l, t, found, keyword, ident, rfl, rfl⟩
  | _ => cases defines

end Editor

open Editor

/-- In a document with plain lines, every symbol of the index is the word at its place, from the
first of its characters to right behind the last. -/
theorem Editor.symbol_is_word_at_place {text key : Text} {symbol : Symbol}
    (plain : Text.hasPlainLines text.toList) (found : (key, symbol) ∈ (Index.ofText text).symbols)
    {j : Nat} (inside : j ≤ symbol.name.length) :
    wordAt text symbol.place.line (symbol.place.character + j) = some symbol.name := by
  have ends : (TokenStream.ofSource text).final.kind = .eof := TokenStream.final_ofSource text
  obtain ⟨_, mem, same⟩ := List.mem_map.1 (Assoc.mem_ofList found)
  cases same
  obtain ⟨statement, mem, defines⟩ := List.mem_filterMap.1 mem
  have named := Parser.namedIn_of_mem_statements ends statement mem
  obtain ⟨l, t, pair, keyword, ident, name, place⟩ := Symbol.ofStatement?_named named defines
  obtain ⟨before, cs, behind, whole, named, ended⟩ := TokenStream.nameIn_scan pair keyword ident
  have length : j ≤ cs.length := by
    rw [name, ← Text.length_toList, named.literal] at inside
    exact inside
  rw [name, place]
  exact wordAt_name plain whole named ended length

/-- A function is found behind a text over two lines and a line end with a carriage return. -/
theorem Editor.symbol_is_word_at_place_function :
    let text : Text := "let s = \"a\nb\";\r\n  let twice = fn(x) \x7b x + x \x7d;"
    let symbol : Symbol := ⟨"twice", .function, ⟨2, 6⟩, "twice = fn(x)"⟩
    Text.hasPlainLines text.toList ∧ (Text.ofString "twice", symbol) ∈ (Index.ofText text).symbols ∧
      wordAt text 2 (6 + 5) = some "twice" := by
  intro text symbol
  have plain : Text.hasPlainLines text.toList := by decide
  have found : (Text.ofString "twice", symbol) ∈ (Index.ofText text).symbols := by
    have table : (Index.ofText text).symbols =
        [(↑"s", ⟨"s", .var, ⟨0, 4⟩, "let s"⟩), (↑"twice", symbol)] := by
      cbv
    rw [table]
    exact .tail _ (.head _)
  exact ⟨plain, found, Editor.symbol_is_word_at_place plain found (j := 5) (by decide)⟩

/-- A form feed ends a line for the lookup and not for the index: behind one in a comment the word
at the place of a symbol is not found. -/
theorem Editor.symbol_lost_behind_form_feed :
    let text : Text := "// part 1\x0c\nlet x = 1;"
    let symbol : Symbol := ⟨"x", .var, ⟨1, 4⟩, "let x"⟩
    (Text.ofString "x", symbol) ∈ (Index.ofText text).symbols ∧ wordAt text 1 4 = none := by
  intro text symbol
  have table : (Index.ofText text).symbols = [(↑"x", symbol)] := by
    cbv
  refine ⟨?_, by decide⟩
  rw [table]
  exact .head _

end MonkeyLang
