import MonkeyLang.Proofs.Lexing.Places

/-!
# The tokens of a text cover it

Every character of a source text belongs to the lexeme of a token or to the layout around the
lexemes: blanks, newlines and comments. The lexemes stand in the text in the order of the tokens,
and the position of a token is the line and the column of the first character of its lexeme.

* `Token.StandsAt` says what the lexeme of a token is and where it stands, `Covers` that lexemes
  and layout make up the text from an offset on.
* `TokenStream.covers_scan` is this for the tokens of a text, `TokenStream.reads_toList` says that
  reading them one by one gives all of them and then the end marker for ever.
* `lex_covers_source` is the result.
-/

namespace MonkeyLang

/-! ## Offsets -/

namespace Text

/-- What stands between two offsets of a text. -/
def between (s : List CodePoint) (first stop : Nat) : List CodePoint := (s.take stop).drop first

theorem between_append (before text behind : List CodePoint) :
    between (before ++ (text ++ behind)) before.length (before.length + text.length) = text := by
  rw [between, ← List.append_assoc, ← List.length_append, List.take_left, List.drop_left]

variable {s : List CodePoint} {first middle stop : Nat}

theorem between_append_drop (le : first ≤ stop) :
    between s first stop ++ s.drop stop = s.drop first := by
  rw [between, List.drop_take]
  have rest : s.drop stop = (s.drop first).drop (stop - first) := by
    rw [List.drop_drop, Nat.add_sub_cancel' le]
  rw [rest, List.take_append_drop]

/-- What stands between two offsets is cut in two at an offset between them. -/
theorem between_append_between (first_le : first ≤ middle) (le_stop : middle ≤ stop) :
    between s first middle ++ between s middle stop = between s first stop := by
  have whole : between s first middle ++ between s middle stop ++ s.drop stop =
      between s first stop ++ s.drop stop := by
    rw [List.append_assoc, between_append_drop le_stop, between_append_drop first_le,
      between_append_drop (Nat.le_trans first_le le_stop)]
  exact List.append_cancel_right whole

end Text

/-- The place of an offset in a text. Lines and columns count from one. -/
def Position.ofOffset (s : List CodePoint) (offset : Nat) : Position where
  line := 1 + (s.take offset).count (.char '\n')
  column := 1 + (Text.openLine (s.take offset)).length

theorem Position.start_after (before behind : List CodePoint) :
    start.after before = ofOffset (before ++ behind) before.length := by
  have line : (start.after before).line = 1 + before.count (.char '\n') := line_after start before
  have column := column_after_start before
  rw [ofOffset, List.take_left, Nat.add_comm 1 (List.length _), ← line, ← column]

/-! ## String bodies -/

/-- The characters between the quotes of a string: no quote but behind a backslash, and something
behind every backslash. -/
inductive StringBody.Whole : List CodePoint → Prop
  | nil : Whole []
  | plain {c : CodePoint} {body : List CodePoint} : c ≠ '"' → c ≠ '\\' → Whole body → Whole (c :: body)
  | escape {c : CodePoint} {body : List CodePoint} : Whole body → Whole (.char '\\' :: c :: body)

namespace StringBody

theorem split_plain {c : CodePoint} (quote : c ≠ '"') (backslash : c ≠ '\\') (r : List CodePoint) :
    split (c :: r) = (c :: (split r).1, (split r).2) := by
  rw [split.eq_def]
  simp only [if_neg quote, if_neg backslash]

theorem split_escape (c : CodePoint) (r : List CodePoint) :
    split (.char '\\' :: c :: r) = (.char '\\' :: c :: (split r).1, (split r).2) := rfl

theorem split_quote (r : List CodePoint) : split (.char '"' :: r) = ([], .char '"' :: r) := by
  rw [split.eq_def]
  rfl

/-- What is split off is a whole body, and ends where the text has a quote, or nothing more than a
backslash. -/
theorem whole_split (s : List CodePoint) :
    Whole (split s).1 ∧
      ((split s).2.head? = some (CodePoint.char '"') ∨ (split s).2 = [] ∨ (split s).2 = ['\\']) := by
  fun_induction split s with
  | case1 => exact ⟨.nil, .inr (.inl rfl)⟩
  | case2 r => exact ⟨.nil, .inl rfl⟩
  | case3 => exact ⟨.nil, .inr (.inr rfl)⟩
  | case4 c r body rest cut _ ih =>
      rw [cut] at ih
      exact ⟨.escape ih.1, ih.2⟩
  | case5 c r quote backslash body rest cut ih =>
      rw [cut] at ih
      exact ⟨.plain quote backslash ih.1, ih.2⟩

/-- A whole body in front of a quote is split off. -/
theorem split_of_whole {body : List CodePoint} (whole : Whole body) (rest : List CodePoint) :
    split (body ++ .char '"' :: rest) = (body, .char '"' :: rest) := by
  induction whole with
  | nil => exact split_quote rest
  | plain quote backslash _ ih => rw [List.cons_append, split_plain quote backslash, ih]
  | escape _ ih => rw [List.cons_append, List.cons_append, split_escape, ih]

end StringBody

/-! ## Lexemes and layout -/

/-- The text is a row of blanks, newlines and comments, in front of what is behind it. A comment
runs up to a newline or to the end. -/
inductive Layout : List CodePoint → List CodePoint → Prop
  | nil {behind : List CodePoint} : Layout [] behind
  | blank {c : CodePoint} {text behind : List CodePoint} :
    isBlank c → Layout text behind → Layout (c :: text) behind
  | newline {text behind : List CodePoint} : Layout text behind → Layout (.char '\n' :: text) behind
  | comment {body text behind : List CodePoint} :
    CodePoint.char '\n' ∉ body → (∀ c ∈ (text ++ behind).head?, c = '\n') → Layout text behind →
    Layout (.char '/' :: .char '/' :: (body ++ text)) behind

/-- The text, in front of what is behind it, is a lexeme of the token: its literal, or, for a
string, a body in quotes that denotes the literal. The closing quote is missing only where the text
ends, but for a backslash with nothing to escape. -/
def Token.SpelledBy (t : Token) (text behind : List CodePoint) : Prop :=
  if t.kind = .string then
    ∃ body, StringBody.Whole body ∧ t.literal.toList = StringBody.decode body ∧
      (text = .char '"' :: (body ++ [.char '"']) ∨
        text = .char '"' :: body ∧ (behind = [] ∨ behind = ['\\']))
  else text = t.literal.toList

/-- Where a lexeme stands: the offsets of its first character and of what is behind its last. -/
structure Extent where
  first : Nat
  stop : Nat
deriving DecidableEq, Repr

/-- The token has its lexeme and its position at the extent in the text. -/
structure Token.StandsAt (s : List CodePoint) (t : Token) (e : Extent) : Prop where
  filled : e.first < e.stop
  inside : e.stop ≤ s.length
  spelled : t.SpelledBy (Text.between s e.first e.stop) (s.drop e.stop)
  pos : t.pos = Position.ofOffset s e.first

/-- From the offset on, the text is made up of the lexemes of the tokens at the extents, one behind
the other, and of layout before, between and behind them. -/
inductive Covers (s : List CodePoint) : Nat → List Token → List Extent → Prop
  | layout {offset : Nat} : offset ≤ s.length → Layout (Text.between s offset s.length) [] →
    Covers s offset [] []
  | token {offset : Nat} {t : Token} {ts : List Token} {e : Extent} {es : List Extent} :
    offset ≤ e.first → Layout (Text.between s offset e.first) (s.drop e.first) → t.StandsAt s e →
    Covers s e.stop ts es → Covers s offset (t :: ts) (e :: es)

/-! ## The first lexeme -/

theorem Layout.blanks {bs gap behind : List CodePoint} (each : ∀ b ∈ bs, isBlank b)
    (h : Layout gap behind) : Layout (bs ++ gap) behind := by
  induction bs with
  | nil => exact h
  | cons b bs ih =>
      rw [List.forall_mem_cons] at each
      exact .blank each.1 (ih each.2)

theorem Token.SpelledBy.plain {kind : Token.Kind} {p : Position} {text behind : List CodePoint}
    (other : kind ≠ .string) : Token.SpelledBy ⟨kind, Text.ofList text, p⟩ text behind := by
  rw [SpelledBy, if_neg other, Text.toList_ofList]

theorem Token.Kind.ne_string_of_spelling {kind : Token.Kind} {text : Text}
    (h : kind.spelling? = some text) : kind ≠ .string := by
  rintro rfl
  cases h

namespace Lexeme

variable {c : CodePoint} {r : List CodePoint}

/-- A lexeme that spells no token is layout in front of more layout. -/
theorem layout_append (separates : (split c r).1.token? = none) {gap behind : List CodePoint}
    (rest : (split c r).2 = gap ++ behind) (h : Layout gap behind) :
    Layout ((split c r).1.text ++ gap) behind := by
  unfold split at separates rest ⊢
  split at separates
  · next newline =>
    rw [newline]
    exact .newline h
  split at separates
  · next newline blank =>
    rw [if_neg newline, if_pos blank]
    refine .blank blank (.blanks (fun b mem => ?_) h)
    exact List.all_eq_true.1 List.all_takeWhile b mem
  split at separates
  · next newline blank comment =>
    rw [if_neg newline, if_neg blank, if_pos comment] at rest ⊢
    obtain ⟨rfl, slash⟩ := comment
    cases r with
    | nil => cases slash
    | cons d r =>
        cases slash
        have head := List.head?_dropWhile_not (· ≠ CodePoint.char '\n') (.char '/' :: r)
        change (.char '/' :: r).dropWhile (· ≠ CodePoint.char '\n') = gap ++ behind at rest
        rw [rest] at head
        have ends : ∀ c ∈ (gap ++ behind).head?, c = '\n' := by
          intro c first
          rw [Option.mem_def.1 first] at head
          simpa using head
        have inside : CodePoint.char '\n' ∉ r.takeWhile (· ≠ CodePoint.char '\n') := by
          intro mem
          have := List.all_eq_true.1 List.all_takeWhile _ mem
          simp at this
        exact .comment inside ends h
  split at separates
  · cases separates
  split at separates
  · cases separates
  split at separates
  · unfold string at separates
    split at separates <;> cases separates
  · unfold symbol at separates
    split at separates <;> cases separates

theorem spelledBy_string {kind : Token.Kind} {literal : Text} {p : Position}
    (h : (string r).1.token? = some (kind, literal)) :
    Token.SpelledBy ⟨kind, literal, p⟩ (string r).1.text (string r).2 := by
  obtain ⟨whole, stop⟩ := StringBody.whole_split r
  unfold string at h ⊢
  split at h
  · next rest cut =>
    cases h
    exact ⟨_, whole, Text.toList_ofList, .inl rfl⟩
  · next rest other =>
    cases h
    refine ⟨_, whole, Text.toList_ofList, .inr ⟨rfl, ?_⟩⟩
    rcases stop with quote | rest
    · obtain ⟨rest, cut⟩ := List.head?_eq_some_iff.1 quote
      exact absurd cut (other rest)
    · exact rest

theorem spelledBy_symbol {kind : Token.Kind} {literal : Text} {p : Position}
    (h : (symbol c r).1.token? = some (kind, literal)) :
    Token.SpelledBy ⟨kind, literal, p⟩ (symbol c r).1.text (symbol c r).2 := by
  unfold symbol at h ⊢
  split at h <;> cases h
  · exact .plain nofun
  · exact .plain nofun
  · cases found : Token.Kind.ofChar? c with
    | none => exact .plain nofun
    | some kind => exact .plain (Token.Kind.ne_string_of_spelling (Token.Kind.spelling?_ofChar found))

/-- A lexeme that spells a token is a lexeme of it. -/
theorem spelledBy_split {kind : Token.Kind} {literal : Text} {p : Position}
    (h : (split c r).1.token? = some (kind, literal)) :
    Token.SpelledBy ⟨kind, literal, p⟩ (split c r).1.text (split c r).2 := by
  unfold split at h ⊢
  split at h
  · cases h
  split at h
  · cases h
  split at h
  · cases h
  split at h
  · next newline blank comment start =>
    rw [if_neg newline, if_neg blank, if_neg comment, if_pos start]
    cases h
    refine .plain ?_
    rcases Token.Kind.ofWord_cases (Text.ofList (c :: r.takeWhile isIdentPart)) with ident | keyword
    · rw [ident]
      exact nofun
    · exact Token.Kind.ne_string_of_spelling keyword
  split at h
  · next newline blank comment start digit =>
    rw [if_neg newline, if_neg blank, if_neg comment, if_neg start, if_pos digit]
    cases h
    exact .plain nofun
  split at h
  · next newline blank comment start digit quote =>
    rw [if_neg newline, if_neg blank, if_neg comment, if_neg start, if_neg digit, if_pos quote]
    exact spelledBy_string h
  · next newline blank comment start digit quote =>
    rw [if_neg newline, if_neg blank, if_neg comment, if_neg start, if_neg digit, if_neg quote]
    exact spelledBy_symbol h

end Lexeme

/-! ## All tokens -/

/-- The position behind a text is the one behind its first lexeme and then behind the rest. -/
theorem Position.after_split (p : Position) (c : CodePoint) (r : List CodePoint) :
    p.after (c :: r) = (p.after (Lexeme.split c r).1.text).after (Lexeme.split c r).2 := by
  rw [← after_append, Lexeme.split_append]

section

variable (before : List CodePoint) (c : CodePoint) (r : List CodePoint)

/-- The first lexeme of what stands behind `before` stands at its offsets in the whole text. -/
theorem Lexeme.between_split :
    Text.between (before ++ c :: r) before.length
      (before.length + (split c r).1.text.length) = (split c r).1.text := by
  rw [← split_append c r, Text.between_append]

theorem Lexeme.drop_split :
    (before ++ c :: r).drop (before.length + (split c r).1.text.length) = (split c r).2 := by
  rw [← split_append c r, ← List.append_assoc, ← List.length_append, List.drop_left]

end

variable {before : List CodePoint} {c : CodePoint} {r : List CodePoint}

/-- What is covered behind a layout lexeme is covered from that lexeme on. -/
theorem Covers.of_layout {ts : List Token} {es : List Extent}
    (separates : (Lexeme.split c r).1.token? = none)
    (h : Covers (before ++ c :: r) (before.length + (Lexeme.split c r).1.text.length) ts es) :
    Covers (before ++ c :: r) before.length ts es := by
  have start := Lexeme.between_split before c r
  have rest := Lexeme.drop_split before c r
  have le := Nat.le_add_right before.length (Lexeme.split c r).1.text.length
  generalize before ++ c :: r = s at h start rest ⊢
  generalize before.length + (Lexeme.split c r).1.text.length = middle at h start rest le
  -- The layout up to the next lexeme, or to the end, is longer by the lexeme.
  have longer {stop : Nat} (le_stop : middle ≤ stop)
      (gap : Layout (Text.between s middle stop) (s.drop stop)) :
      Layout (Text.between s before.length stop) (s.drop stop) := by
    rw [← Text.between_append_between le le_stop, start]
    exact Lexeme.layout_append separates
      (rest.symm.trans (Text.between_append_drop le_stop).symm) gap
  cases h with
  | layout inside gap =>
      have whole := longer inside
      rw [List.drop_length] at whole
      exact .layout (Nat.le_trans le inside) (whole gap)
  | token le_first gap stands later =>
      exact .token (Nat.le_trans le le_first) (longer le_first gap) stands later

/-- A token stands where its lexeme has been cut off. -/
theorem Token.standsAt_split {kind : Token.Kind} {literal : Text} {p : Position}
    (found : (Lexeme.split c r).1.token? = some (kind, literal))
    (place : p = Position.start.after before) :
    Token.StandsAt (before ++ c :: r) ⟨kind, literal, p⟩
      ⟨before.length, before.length + (Lexeme.split c r).1.text.length⟩ where
  filled := Nat.lt_add_of_pos_right (List.length_pos_iff.2 (Lexeme.text_ne_nil c r))
  inside := by
    have cut := congrArg List.length (Lexeme.split_append c r)
    rw [List.length_append] at cut ⊢
    dsimp only
    omega
  spelled := by
    rw [Lexeme.between_split, Lexeme.drop_split]
    exact Lexeme.spelledBy_split found
  pos := place.trans (Position.start_after before (c :: r))

/-- What is covered behind the first lexeme, as a part of the whole text. -/
theorem Covers.behind_split {ts : List Token} {es : List Extent}
    (h : Covers (before ++ (Lexeme.split c r).1.text ++ (Lexeme.split c r).2)
      (before ++ (Lexeme.split c r).1.text).length ts es) :
    Covers (before ++ c :: r) (before.length + (Lexeme.split c r).1.text.length) ts es := by
  rwa [List.append_assoc, Lexeme.split_append, List.length_append] at h

namespace TokenStream

/-- The tokens of a text cover it from where they start. -/
theorem covers_scan (p : Position) (s before : List CodePoint)
    (place : p = Position.start.after before) :
    ∃ es, Covers (before ++ s) before.length (scan p s).unread es := by
  fun_induction scan p s generalizing before with
  | case1 p =>
      have nothing : Text.between before before.length before.length = [] := by
        rw [Text.between, List.take_length, List.drop_length]
      rw [List.append_nil]
      exact ⟨[], .layout (Nat.le_refl _) (nothing ▸ .nil)⟩
  | case2 p c r later separates ih =>
      obtain ⟨es, covered⟩ := ih _ (by rw [place, Position.after_append])
      exact ⟨es, covered.behind_split.of_layout separates⟩
  | case3 p c r later kind literal found ih =>
      obtain ⟨es, covered⟩ := ih _ (by rw [place, Position.after_append])
      have nothing : Text.between (before ++ c :: r) before.length before.length = [] := by
        rw [Text.between, List.take_left, List.drop_length]
      exact ⟨_ :: es, .token (Nat.le_refl _) (nothing ▸ .nil) (Token.standsAt_split found place)
        covered.behind_split⟩

theorem final_scan (p : Position) (s : List CodePoint) : (scan p s).final = ⟨.eof, "", p.after s⟩ := by
  fun_induction scan p s with
  | case1 p => rfl
  | case2 p c r later separates ih =>
      rw [ih, Position.after_split p]
  | case3 p c r later kind literal found ih =>
      rw [ih, Position.after_split p]

/-- Reading token by token up to the first end marker gives the tokens, and leaves a stream. -/
inductive Iterates : TokenStream → List Token → TokenStream → Prop
  | last {s : TokenStream} {t : Token} {rest : TokenStream} :
    s.next = (t, rest) → t.kind = .eof → Iterates s [t] rest
  | more {s : TokenStream} {t : Token} {later rest : TokenStream} {ts : List Token} :
    s.next = (t, later) → t.kind ≠ .eof → Iterates later ts rest → Iterates s (t :: ts) rest

/-- Reading token by token gives all tokens. -/
theorem iterates_toList {s : TokenStream} (inside : ∀ t ∈ s.unread, t.kind ≠ .eof)
    (ends : s.final.kind = .eof) : s.Iterates s.toList s.exhausted := by
  obtain ⟨unread, final⟩ := s
  induction unread with
  | nil => exact .last rfl ends
  | cons t ts ih =>
      rw [List.forall_mem_cons] at inside
      exact .more rfl inside.1 (ih inside.2 ends)

end TokenStream

/-- The tokens of a text and then one end marker are all that lexing gives. The lexemes of the
tokens stand in the text one behind the other, with layout and nothing else around them, and each
token has the position of the first character of its lexeme; the end marker has the position behind
the text. Reading the tokens one by one gives the same, and then the end marker every time. -/
theorem lex_covers_source (source : Text) :
    ∃ ts es final, lex source = ts ++ [final] ∧
      (∀ t ∈ ts, t.kind ≠ .eof) ∧ Covers source.toList 0 ts es ∧
      final = ⟨.eof, "", Position.ofOffset source.toList source.toList.length⟩ ∧
      ∃ rest, (TokenStream.ofSource source).Iterates (lex source) rest ∧
        ∀ n, rest.take n = List.replicate n final := by
  have inside (t : Token) (mem : t ∈ (TokenStream.ofSource source).unread) : t.kind ≠ .eof :=
    (TokenStream.lexical_ofSource source t mem).inside
  obtain ⟨es, covered⟩ := TokenStream.covers_scan .start source.toList [] rfl
  have final : (TokenStream.ofSource source).final =
      ⟨.eof, "", Position.ofOffset source.toList source.toList.length⟩ := by
    have place := Position.start_after source.toList []
    rw [List.append_nil] at place
    rw [TokenStream.ofSource, TokenStream.final_scan, place]
  refine ⟨_, es, _, rfl, inside, covered, final, _, ?_, TokenStream.take_exhausted _⟩
  exact TokenStream.iterates_toList inside (TokenStream.final_ofSource source)

end MonkeyLang
