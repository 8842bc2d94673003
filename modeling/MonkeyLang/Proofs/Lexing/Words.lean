import MonkeyLang.Proofs.Grammar.Lexical

/-!
# The words of a text

`Lexeme.words` are the words that a text is cut into, without their positions. What a text starts
with can be read off as long as nothing behind it would make the lexeme longer: a name or a numeral
ends before a character that is no part of a name (`Apart`), a symbol before one that makes no
longer symbol with it (`Alone`). `Cuts s ws` says that the text is cut into the words wherever it
ends before what is no part of a name, so texts can be put one behind the other.
-/

namespace MonkeyLang

namespace Lexeme

/-- The words that a text is cut into. -/
def words (s : List CodePoint) : List Word :=
  match s with
  | [] => []
  | c :: r => (split c r).1.token?.toList ++ words (split c r).2
termination_by s.length
decreasing_by exact Nat.lt_succ_of_le (length_rest_le c r)

@[simp] theorem words_nil : words [] = [] := by
  rw [words]

theorem words_cons (c : CodePoint) (r : List CodePoint) :
    words (c :: r) = (split c r).1.token?.toList ++ words (split c r).2 := by
  rw [words]

theorem words_eq {c : CodePoint} {r rest : List CodePoint} {lexeme : Lexeme}
    (h : split c r = (lexeme, rest)) : words (c :: r) = lexeme.token?.toList ++ words rest := by
  rw [words_cons, h]

/-- The words of a text are those of its tokens. -/
theorem words_scan (p : Position) (s : List CodePoint) :
    (TokenStream.scan p s).unread.map Token.word = words s := by
  fun_induction TokenStream.scan p s with
  | case1 p => rw [words_nil]; rfl
  | case2 p c r later layout ih =>
      rw [words_cons, layout]
      exact ih
  | case3 p c r later kind literal found ih =>
      rw [words_cons, found, List.map_cons, ih]
      rfl

/-! ## Names and numerals -/

/-- No character that can be part of a name comes first. -/
def Apart (rest : List CodePoint) : Prop := ∀ c ∈ rest.head?, isIdentPart c = false

theorem apart_nil : Apart [] := nofun

theorem apart_cons {c : CodePoint} {r : List CodePoint} (h : isIdentPart c = false) : Apart (c :: r) := by
  intro d hd
  obtain rfl := Option.some.inj hd
  exact h

section

variable {p : CodePoint → Bool} {cs rest : List CodePoint}

theorem takeWhile_append (inside : ∀ c ∈ cs, p c) (outside : ∀ c ∈ rest.head?, p c = false) :
    (cs ++ rest).takeWhile p = cs := by
  rw [List.takeWhile_append_of_pos inside]
  cases rest with
  | nil => simp
  | cons c r => rw [List.takeWhile_cons_of_neg (by simp [outside c rfl]), List.append_nil]

theorem dropWhile_append (inside : ∀ c ∈ cs, p c) (outside : ∀ c ∈ rest.head?, p c = false) :
    (cs ++ rest).dropWhile p = rest := by
  rw [List.dropWhile_append_of_pos inside]
  cases rest with
  | nil => simp
  | cons c r => rw [List.dropWhile_cons_of_neg (by simp [outside c rfl])]

end

theorem ne_of_class {p : CodePoint → Bool} {c d : CodePoint} (h : p c) (hd : p d = false) : c ≠ d := by
  intro same
  subst same
  rw [h] at hd
  cases hd

theorem isBlank_eq_false {p : CodePoint → Bool}
    (blanks : p ' ' = false ∧ p '\t' = false ∧ p '\r' = false) {c : CodePoint} (h : p c) :
    isBlank c = false := by
  have blank : c ≠ ' ' := ne_of_class h blanks.1
  have tab : c ≠ '\t' := ne_of_class h blanks.2.1
  have return_ : c ≠ '\r' := ne_of_class h blanks.2.2
  simp [isBlank, blank, tab, return_]

theorem split_of_start {c : CodePoint} (h : isIdentStart c) (r : List CodePoint) :
    split c r = run isIdentPart word c r := by
  have slash : ¬ (c = '/' ∧ r.head? = some (CodePoint.char '/')) := fun both => ne_of_class h rfl both.1
  rw [split, if_neg (ne_of_class h rfl), isBlank_eq_false (by decide) h, if_neg nofun,
    if_neg slash, if_pos h]

theorem not_isIdentStart_of_isDigit {c : CodePoint} (h : c.isDigit) : isIdentStart c = false := by
  have underscore : c ≠ '_' := ne_of_class h rfl
  have letter : c.isAlpha = false := by
    obtain ⟨d, rfl, digit⟩ := CodePoint.exists_char_of_isDigit h
    have range : 48 ≤ d.toNat ∧ d.toNat ≤ 57 := Char.isDigit_iff_toNat.1 digit
    refine Bool.eq_false_iff.2 fun alpha => ?_
    simp only [CodePoint.isAlpha, Char.isAlpha, Char.isUpper, Char.isLower, Bool.or_eq_true,
      Bool.and_eq_true, decide_eq_true_eq, UInt32.le_iff_toNat_le, ge_iff_le] at alpha
    change (65 ≤ d.toNat ∧ d.toNat ≤ 90) ∨ (97 ≤ d.toNat ∧ d.toNat ≤ 122) at alpha
    omega
  rw [isIdentStart, letter, decide_eq_false underscore]
  rfl

theorem split_of_digit {c : CodePoint} (h : c.isDigit) (r : List CodePoint) :
    split c r = run CodePoint.isDigit (plain .int) c r := by
  have slash : ¬ (c = '/' ∧ r.head? = some (CodePoint.char '/')) := fun both => ne_of_class h rfl both.1
  rw [split, if_neg (ne_of_class h rfl), isBlank_eq_false (by decide) h, if_neg nofun,
    if_neg slash, not_isIdentStart_of_isDigit h, if_neg nofun, if_pos h]

/-- A name ends before what is no part of a name. -/
theorem words_name {c : CodePoint} {cs rest : List CodePoint} (start : isIdentStart c)
    (parts : ∀ d ∈ cs, isIdentPart d) (apart : Apart rest) :
    words (c :: (cs ++ rest)) =
      (Token.Kind.ofWord (Text.ofList (c :: cs)), Text.ofList (c :: cs)) :: words rest := by
  have cut : split c (cs ++ rest) = (word (c :: cs), rest) := by
    rw [split_of_start start, run, takeWhile_append parts apart, dropWhile_append parts apart]
  rw [words_eq cut]
  rfl

theorem isIdentPart_of_isDigit {c : CodePoint} (h : c.isDigit) : isIdentPart c := by
  simp [isIdentPart, CodePoint.isAlphanum, h]

/-- A numeral ends before what is no part of a name. -/
theorem words_digits {c : CodePoint} {cs rest : List CodePoint} (start : c.isDigit)
    (digits : ∀ d ∈ cs, d.isDigit) (apart : Apart rest) :
    words (c :: (cs ++ rest)) = (.int, Text.ofList (c :: cs)) :: words rest := by
  have outside : ∀ d ∈ rest.head?, d.isDigit = false := fun d hd =>
    Bool.eq_false_iff.2 fun digit =>
      absurd (isIdentPart_of_isDigit digit) (Bool.eq_false_iff.1 (apart d hd))
  have cut : split c (cs ++ rest) = (plain .int (c :: cs), rest) := by
    rw [split_of_digit start, run, takeWhile_append digits outside,
      dropWhile_append digits outside]
  rw [words_eq cut]
  rfl

/-! ## Blanks and symbols -/

theorem split_of_isBlank {c : CodePoint} (h : isBlank c) (r : List CodePoint) :
    split c r = run isBlank layout c r := by
  have cases : c = ' ' ∨ c = '\t' ∨ c = '\r' := by simpa [isBlank, or_assoc] using h
  rcases cases with rfl | rfl | rfl <;> rfl

/-- Blanks between lexemes make no words. -/
theorem words_blank (r : List CodePoint) : words (.char ' ' :: r) = words r := by
  have dropped : words (r.dropWhile isBlank) = words r := by
    cases r with
    | nil => rfl
    | cons c r =>
        cases blank : isBlank c with
        | false => rw [List.dropWhile_cons_of_neg (by simp [blank])]
        | true =>
            rw [List.dropWhile_cons_of_pos blank, words_cons, split_of_isBlank blank]
            rfl
  rw [words_cons]
  exact dropped

/-- The character and what follows make no longer lexeme. -/
def Alone (c : CodePoint) (r : List CodePoint) : Prop :=
  (c = '=' ∨ c = '!' → r.head? ≠ some (CodePoint.char '=')) ∧
    (c = '/' → r.head? ≠ some (CodePoint.char '/'))

theorem split_of_symbol {c : CodePoint} {kind : Token.Kind} (known : Token.Kind.ofChar? c = some kind)
    {r : List CodePoint} (alone : Alone c r) : split c r = (plain kind [c], r) := by
  have cut : split c r = symbol c r := by
    unfold Token.Kind.ofChar? at known
    split at known <;> cases known
    case h_6 =>
      have comment : ¬ (CodePoint.char '/' = '/' ∧ r.head? = some (CodePoint.char '/')) :=
        fun both => alone.2 rfl both.2
      rw [split, if_neg (by decide), if_neg (by decide), if_neg comment]
      rfl
    all_goals rfl
  rw [cut]
  unfold symbol
  split
  · exact absurd rfl (alone.1 (.inl rfl))
  · exact absurd rfl (alone.1 (.inr rfl))
  · rw [known]
    rfl

theorem words_symbol {c : CodePoint} {kind : Token.Kind} (known : Token.Kind.ofChar? c = some kind)
    {r : List CodePoint} (alone : Alone c r) : words (c :: r) = kind.word :: words r := by
  rw [words_eq (split_of_symbol known alone)]
  simp only [plain, Option.toList_some, List.singleton_append, Token.Kind.word,
    Token.Kind.spelling?_ofChar known, Option.getD_some]

theorem words_eqSymbol (r : List CodePoint) :
    words (.char '=' :: .char '=' :: r) = Token.Kind.eq.word :: words r := by
  have cut : split '=' (.char '=' :: r) = (plain .eq ['=', '='], r) := rfl
  rw [words_eq cut]
  rfl

theorem words_notEqSymbol (r : List CodePoint) :
    words (.char '!' :: .char '=' :: r) = Token.Kind.notEq.word :: words r := by
  have cut : split '!' (.char '=' :: r) = (plain .notEq ['!', '='], r) := rfl
  rw [words_eq cut]
  rfl

/-! ## Texts that do not fuse with what follows -/

/-- A character that makes a symbol of its own, whatever follows it. -/
def IsSingle (c : CodePoint) : Prop := c ≠ '=' ∧ c ≠ '!' ∧ c ≠ '/'

instance (c : CodePoint) : Decidable (IsSingle c) := inferInstanceAs (Decidable (_ ∧ _ ∧ _))

theorem IsSingle.alone {c : CodePoint} (h : IsSingle c) (r : List CodePoint) : Alone c r :=
  ⟨fun is => absurd is (not_or.2 ⟨h.1, h.2.1⟩), fun is => absurd is h.2.2⟩

theorem isIdentPart_of_ofChar? {c : CodePoint} {kind : Token.Kind}
    (known : Token.Kind.ofChar? c = some kind) : isIdentPart c = false := by
  unfold Token.Kind.ofChar? at known
  split at known <;> first | rfl | cases known

/-- The text is cut into the words wherever it ends before what is no part of a name. -/
def Cuts (s : List CodePoint) (ws : List Word) : Prop :=
  ∀ ⦃rest : List CodePoint⦄, Apart rest → words (s ++ rest) = ws ++ words rest

namespace Cuts

variable {s t : List CodePoint} {ws us : List Word} {c : CodePoint} {kind : Token.Kind}

theorem words_eq (h : Cuts s ws) : words s = ws := by
  have alone := h apart_nil
  rwa [List.append_nil, words_nil, List.append_nil] at alone

theorem nil : Cuts [] [] := fun _ _ => rfl

theorem blank (h : Cuts s ws) : Cuts (.char ' ' :: s) ws := by
  intro rest apart
  rw [List.cons_append, words_blank, h apart]

theorem symbol (known : Token.Kind.ofChar? c = some kind) (alone : ∀ rest, Alone c (s ++ rest))
    (h : Cuts s ws) : Cuts (c :: s) (kind.word :: ws) := by
  intro rest apart
  rw [List.cons_append, words_symbol known (alone rest), h apart, List.cons_append]

/-- What comes next starts with a character that is no part of a name. -/
theorem followed (h : Cuts s ws) (outside : isIdentPart c = false) (later : Cuts (c :: t) us) :
    Cuts (s ++ c :: t) (ws ++ us) := by
  intro rest apart
  have next : Apart (c :: t ++ rest) := apart_cons outside
  rw [List.append_assoc, h next, later apart, List.append_assoc]

/-- A symbol of one character comes next. -/
theorem separated (h : Cuts s ws) (known : Token.Kind.ofChar? c = some kind) (single : IsSingle c)
    (later : Cuts t us) : Cuts (s ++ c :: t) (ws ++ kind.word :: us) :=
  h.followed (isIdentPart_of_ofChar? known) (later.symbol known fun _ => single.alone _)

/-- Brackets stand around the text. -/
theorem bracketed {d : CodePoint} {closing : Token.Kind} (h : Cuts s ws)
    (opens : Token.Kind.ofChar? c = some kind) (closes : Token.Kind.ofChar? d = some closing)
    (single : IsSingle c ∧ IsSingle d) :
    Cuts (c :: (s ++ [d])) (kind.word :: (ws ++ [closing.word])) :=
  (h.separated closes single.2 nil).symbol opens fun _ => single.1.alone _

end Cuts

end Lexeme

end MonkeyLang
