import MonkeyLang.Proofs.Lexing.Coverage
import MonkeyLang.Proofs.Lexing.Rendering

/-!
# Writing words

Every word has a spelling: a string is written in quotes, with a backslash before each quote and
each backslash in it, and any other word is its literal. Behind a blank or at the end of the text a
spelling ends, so that words can be written one behind the other.

* `StringBody.encode` is the body that denotes a text, `StringBody.decode_encode` that it does.
* `Lexeme.words_written` is the step: a spelling in front of a blank is cut off as its word.
* `lex_written` is the result for rows of words.
-/

namespace MonkeyLang

/-! ## Texts in quotes -/

namespace StringBody

/-- The body that denotes a text: a backslash stands before each quote and each backslash. -/
def encode (s : List CodePoint) : List CodePoint :=
  s.flatMap fun c : CodePoint => if c = '"' ∨ c = '\\' then ['\\', c] else [c]

theorem encode_plain {c : CodePoint} (plain : ¬ (c = '"' ∨ c = '\\')) (s : List CodePoint) :
    encode (c :: s) = c :: encode s := by
  rw [encode, List.flatMap_cons, if_neg plain]
  rfl

theorem encode_escape {c : CodePoint} (special : c = '"' ∨ c = '\\') (s : List CodePoint) :
    encode (c :: s) = .char '\\' :: c :: encode s := by
  rw [encode, List.flatMap_cons, if_pos special]
  rfl

theorem whole_encode (s : List CodePoint) : Whole (encode s) := by
  induction s with
  | nil => exact .nil
  | cons c s ih =>
      by_cases special : c = '"' ∨ c = '\\'
      · rw [encode_escape special]
        exact .escape ih
      · rw [encode_plain special]
        rw [not_or] at special
        exact .plain special.1 special.2 ih

/-- The body of a text denotes the text. -/
theorem decode_encode (s : List CodePoint) : decode (encode s) = s := by
  induction s with
  | nil => rfl
  | cons c s ih =>
      by_cases special : c = '"' ∨ c = '\\'
      · rw [encode_escape special, decode, if_pos rfl]
        rcases special with rfl | rfl
        · exact congrArg (.char '"' :: ·) ih
        · exact congrArg (.char '\\' :: ·) ih
      · rw [encode_plain special]
        rw [not_or] at special
        rw [decode.eq_def]
        simp only [if_neg special.2, ih]

end StringBody

/-! ## Spellings -/

namespace Word

/-- Is the word one that a token of a text can have: a name that is no keyword, a numeral, any
string, or a kind with its only spelling? -/
def isWritable : Word → Bool
  | (.ident, text) => isName text
  | (.int, text) => text != "" && text.toList.all CodePoint.isDigit
  | (.string, _) => true
  | (kind, text) => kind.spelling? == some text

/-- The spelling of a word. -/
def written : Word → Text
  | (.string, text) => "\"" ++ Text.ofList (StringBody.encode text.toList) ++ "\""
  | (_, text) => text

/-- The spelling of a word other than a string is its literal. -/
theorem written_of_ne {kind : Token.Kind} (other : kind ≠ .string) (text : Text) :
    written (kind, text) = text := by
  unfold written
  split
  · next same =>
    cases same
    exact absurd rfl other
  · next same =>
    cases same
    rfl

end Word

namespace Lexeme

/-- What stands behind a spelling: nothing, or a blank and more. -/
def AtBlank (rest : List CodePoint) : Prop := ∀ c ∈ rest.head?, c = ' '

variable {rest : List CodePoint}

theorem AtBlank.apart (h : AtBlank rest) : Apart rest := by
  intro c head
  rw [h c head]
  decide

theorem AtBlank.head_ne (h : AtBlank rest) {c : CodePoint} (other : c ≠ ' ') :
    rest.head? ≠ some c :=
  fun head => other (h c head)

theorem AtBlank.alone (h : AtBlank rest) (c : CodePoint) : Alone c rest :=
  ⟨fun _ => h.head_ne (by decide), fun _ => h.head_ne (by decide)⟩

/-- A text in quotes is cut off as a string. -/
theorem words_string (s rest : List CodePoint) :
    words (.char '"' :: (StringBody.encode s ++ .char '"' :: rest)) =
      (.string, Text.ofList s) :: words rest := by
  have body := StringBody.split_of_whole (StringBody.whole_encode s) rest
  have cut : split '"' (StringBody.encode s ++ .char '"' :: rest) =
      (⟨.char '"' :: StringBody.encode s ++ [.char '"'], some (.string, Text.ofList s)⟩, rest) := by
    change string (StringBody.encode s ++ .char '"' :: rest) = _
    unfold string
    rw [body]
    simp only [StringBody.decode_encode]
  rw [words_eq cut]
  rfl

/-- The only spelling of a kind is a keyword, one character or one of two symbols. -/
theorem spelling?_cases {kind : Token.Kind} {text : Text}
    (spelled : kind.spelling? = some text) :
    (isWord text ∧ Token.Kind.ofWord text = kind) ∨
      (∃ c, text.toList = [c] ∧ Token.Kind.ofChar? c = some kind) ∨
        (kind = .eq ∧ text = "==") ∨ (kind = .notEq ∧ text = "!=") := by
  cases kind <;> cases spelled
  case eq => exact .inr (.inr (.inl ⟨rfl, rfl⟩))
  case notEq => exact .inr (.inr (.inr ⟨rfl, rfl⟩))
  case kwFn | kwLet | kwTrue | kwFalse | kwIf | kwElse | kwReturn | kwMacro =>
    exact .inl (by decide)
  all_goals exact .inr (.inl ⟨_, rfl, rfl⟩)

/-- A word of a kind with one spelling is cut off in front of a blank. -/
theorem words_spelling {kind : Token.Kind} {text : Text} (spelled : kind.spelling? = some text)
    (blank : AtBlank rest) : words (text.toList ++ rest) = (kind, text) :: words rest := by
  have own : kind.word = (kind, text) := by rw [Token.Kind.word, spelled, Option.getD_some]
  rcases spelling?_cases spelled with ⟨word, is⟩ | ⟨c, single, known⟩ | ⟨rfl, rfl⟩ | ⟨rfl, rfl⟩
  · rw [cuts_keyword word is spelled blank.apart, own]
    rfl
  · rw [single, List.singleton_append, words_symbol known (blank.alone c), own]
  · exact words_eqSymbol rest
  · exact words_notEqSymbol rest

theorem words_numeral {text : Text} (filled : text ≠ "") (digits : ∀ c ∈ text.toList, c.isDigit)
    (apart : Apart rest) : words (text.toList ++ rest) = (.int, text) :: words rest := by
  cases chars : text.toList with
  | nil => exact absurd (Text.toList_eq_nil_iff.1 chars) filled
  | cons c cs =>
      rw [chars, List.forall_mem_cons] at digits
      rw [List.cons_append, words_digits digits.1 digits.2 apart, ← chars, Text.ofList_toList]

/-- The spelling of a word is cut off in front of a blank. -/
theorem words_written {w : Word} (writable : w.isWritable) (blank : AtBlank rest) :
    words (w.written.toList ++ rest) = w :: words rest := by
  unfold Word.isWritable at writable
  split at writable
  · next text => exact cuts_ident writable blank.apart
  · next text =>
    simp only [Bool.and_eq_true, bne_iff_ne, List.all_eq_true] at writable
    exact words_numeral writable.1 writable.2 blank.apart
  · next text =>
    have chars : (Word.written (.string, text)).toList ++ rest =
        .char '"' :: (StringBody.encode text.toList ++ .char '"' :: rest) := by
      simp [Word.written]
    rw [chars, words_string, Text.ofList_toList]
  · next kind text _ _ other =>
    rw [Word.written_of_ne other]
    exact words_spelling (beq_iff_eq.1 writable) blank

end Lexeme

/-- The spellings of words with single blanks between them. -/
def Word.joined (ws : List Word) : Text := Text.intercalate " " (ws.map written)

theorem Word.toList_joined_cons (w : Word) (ws : List Word) :
    (joined (w :: ws)).toList = w.written.toList ++
      if ws.isEmpty then [] else .char ' ' :: (joined ws).toList := by
  cases ws with
  | nil => simp [joined]
  | cons w' ws => simp [joined, Text.intercalate_cons_cons]

/-- Words are cut from their spellings with blanks between them. -/
theorem Lexeme.words_joined {ws : List Word} (writable : ∀ w ∈ ws, w.isWritable) :
    words (Word.joined ws).toList = ws := by
  induction ws with
  | nil => exact words_nil
  | cons w ws ih =>
      rw [List.forall_mem_cons] at writable
      rw [Word.toList_joined_cons]
      cases ws with
      | nil =>
          have alone : words (w.written.toList ++ []) = w :: words [] :=
            words_written writable.1 nofun
          rwa [words_nil] at alone
      | cons w' ws =>
          have first : words (w.written.toList ++ .char ' ' :: (Word.joined (w' :: ws)).toList) =
              w :: words (.char ' ' :: (Word.joined (w' :: ws)).toList) :=
            words_written writable.1 fun c head => (Option.some.inj head).symm
          rwa [words_blank, ih writable.2] at first

/-- A row of words is lexed from their spellings with single blanks between them, and the end marker
follows. -/
theorem lex_written {ws : List Word} (writable : ∀ w ∈ ws, w.isWritable) :
    (lex (Word.joined ws)).map Token.word = ws ++ [((.eof, "") : Word)] := by
  have words := Lexeme.words_scan .start (Word.joined ws).toList
  have final := TokenStream.final_scan .start (Word.joined ws).toList
  rw [Lexeme.words_joined writable] at words
  rw [lex, TokenStream.toList, TokenStream.ofSource, List.map_append, words, final]
  rfl

/-- Words that would fuse or end a string early if they were not kept apart. -/
theorem lex_written_string :
    let ws : List Word := [(.kwLet, "let"), (.ident, "let_1"), (.assign, "="), (.eq, "=="),
      (.string, "say \"\\\\\"\n// \\"), (.slash, "/"), (.slash, "/"), (.int, "007"), (.bang, "!"),
      (.notEq, "!=")]
    let text : Text := "let let_1 = == \"say \\\"\\\\\\\\\\\"\n// \\\\\" / / 007 ! !="
    (∀ w ∈ ws, w.isWritable) ∧ Word.joined ws = text ∧
      (lex text).map Token.word = ws ++ [((.eof, "") : Word)] := by
  intro ws text
  have writable : ∀ w ∈ ws, w.isWritable := by decide
  have written : Word.joined ws = text := by decide
  have read := lex_written writable
  rw [written] at read
  exact ⟨writable, written, read⟩

end MonkeyLang
