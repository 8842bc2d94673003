import Mathlib
import MonkeyLang.Decimal
import MonkeyLang.TokenStream

/-!
# Tokens and their literals

The literal of a token is not arbitrary: an integer token carries decimal digits, and a keyword, an
operator or a delimiter carries its own spelling. `Token.Lexical` says so, and every token of a
source text is such (`TokenStream.lexical_ofSource`).
-/

namespace MonkeyLang

/-! ## Numerals -/

namespace Decimal

theorem value_eq_ofDigitChars (digits : List Char) : value digits = Nat.ofDigitChars 10 digits 0 :=
  Nat.ofDigitChars_eq_foldl.symm

theorem toNat_sub_lt {c : Char} (h : c.isDigit) : c.toNat - '0'.toNat < 10 := by
  have range : 48 ≤ c.toNat ∧ c.toNat ≤ 57 := Char.isDigit_iff_toNat.1 h
  change c.toNat - 48 < 10
  omega

/-- A row of digits denotes less than the power of ten that has one digit more. -/
theorem value_lt {digits : List Char} (h : ∀ c ∈ digits, c.isDigit) :
    value digits < 10 ^ digits.length := by
  rw [value_eq_ofDigitChars]
  induction digits with
  | nil => exact Nat.one_pos
  | cons c cs ih =>
      have first := toNat_sub_lt (h c (List.mem_cons_self ..))
      have others := ih fun c hc => h c (List.mem_cons_of_mem _ hc)
      rw [Nat.ofDigitChars_cons, Nat.ofDigitChars_eq_ofDigitChars_zero, Nat.mul_zero, Nat.zero_add]
      calc
        _ < 10 ^ cs.length * (c.toNat - '0'.toNat) + 10 ^ cs.length := Nat.add_lt_add_left others _
        _ = 10 ^ cs.length * (c.toNat - '0'.toNat + 1) := (Nat.mul_succ ..).symm
        _ ≤ 10 ^ cs.length * 10 := Nat.mul_le_mul_left _ first

theorem isOverlong_of_lt {n k : Nat} (h : n < 10 ^ k) (short : k ≤ longest) :
    isOverlong n = false := by
  unfold isOverlong limit
  rw [Nat.pow_eq, Int.natAbs_natCast, decide_eq_false_iff_not, Nat.not_le]
  generalize longest = top at short ⊢
  exact Nat.lt_of_lt_of_le h (Nat.pow_le_pow_right (by decide) short)

/-- The text of a natural number denotes it. -/
theorem value_repr (n : Nat) : value n.repr.toList = n := by
  rw [value_eq_ofDigitChars, Nat.toList_repr, Nat.ofDigitChars_ten_toDigits]

/-- The text of an integer that can be written is not overlong. -/
theorem length_repr_le {n : Nat} (h : isOverlong n = false) : n.repr.length ≤ longest := by
  unfold isOverlong limit at h
  rw [Nat.pow_eq, Int.natAbs_natCast, decide_eq_false_iff_not, Nat.not_le] at h
  have some_digit : 0 < longest := by decide
  generalize longest = top at h some_digit ⊢
  exact (Nat.length_repr_le_iff some_digit).2 h

end Decimal

/-! ## Tokens -/

/-- The only literal that a token of the kind can carry, if there is only one. -/
def Token.Kind.spelling? : Token.Kind → Option Text
  | .illegal | .eof | .ident | .int | .string => none
  | .kwFn => some "fn"
  | .kwLet => some "let"
  | .kwTrue => some "true"
  | .kwFalse => some "false"
  | .kwIf => some "if"
  | .kwElse => some "else"
  | .kwReturn => some "return"
  | .kwMacro => some "macro"
  | kind => some kind.name

/-- A token without its position. -/
abbrev Word := Token.Kind × Text

/-- What a token is, wherever it stands. -/
def Token.word (t : Token) : Word := (t.kind, t.literal)

/-- The word of a kind that has one spelling. -/
def Token.Kind.word (kind : Kind) : Word := (kind, kind.spelling?.getD "")

/-- The token has a literal that goes with its kind and is no end marker. -/
structure Token.Lexical (t : Token) : Prop where
  inside : t.kind ≠ .eof
  spelled : ∀ s, t.kind.spelling? = some s → t.literal = s
  digits : t.kind = .int → ∀ c ∈ t.literal.toList, c.isDigit

/-- A kind and the literal that goes with it. -/
theorem Token.Lexical.of_spelling {kind : Token.Kind} {literal : Text} {pos : Position}
    (h : kind.spelling? = some literal) : Token.Lexical ⟨kind, literal, pos⟩ where
  inside := by
    intro same
    subst same
    cases h
  spelled s hs := Option.some.inj (h.symm.trans hs)
  digits := by
    intro same
    subst same
    cases h

/-- A kind that goes with any literal. -/
theorem Token.Lexical.of_free {kind : Token.Kind} {literal : Text} {pos : Position}
    (inside : kind ≠ .eof) (free : kind.spelling? = none) (notInt : kind ≠ .int) :
    Token.Lexical ⟨kind, literal, pos⟩ where
  inside := inside
  spelled _ hs := by cases free.symm.trans hs
  digits is := absurd is notInt

/-- What is found in a table of words is one of its entries. -/
theorem mem_of_lookup {α : Type} {table : List (Text × α)} {word : Text} {a : α}
    (found : table.lookup word = some a) : (word, a) ∈ table := by
  obtain ⟨before, behind, is, -⟩ := List.lookup_eq_some_iff.1 found
  rw [is]
  exact List.mem_append_right before (List.mem_cons_self ..)

/-- A word is an identifier or the keyword that it spells. -/
theorem Token.Kind.ofWord_cases (word : Text) :
    ofWord word = .ident ∨ (ofWord word).spelling? = some word := by
  have keywords_spelled : ∀ entry ∈ keywords, entry.2.spelling? = some entry.1 := by decide
  unfold ofWord
  cases found : keywords.lookup word with
  | none => exact .inl rfl
  | some kind =>
      exact .inr (keywords_spelled (word, kind) (mem_of_lookup found))

theorem Token.Kind.spelling?_ofChar {c : CodePoint} {kind : Token.Kind} (h : ofChar? c = some kind) :
    kind.spelling? = some (Text.ofList [c]) := by
  unfold ofChar? at h
  split at h <;> cases h <;> decide

namespace Lexeme

variable {p : Position} {kind : Token.Kind} {literal : Text}

theorem lexical_word (text : Text) : Token.Lexical ⟨Token.Kind.ofWord text, text, p⟩ := by
  rcases Token.Kind.ofWord_cases text with ident | spelled
  · rw [ident]
    exact .of_free nofun rfl nofun
  · exact .of_spelling spelled

theorem lexical_symbol {c : CodePoint} {r : List CodePoint}
    (h : (symbol c r).1.token? = some (kind, literal)) : Token.Lexical ⟨kind, literal, p⟩ := by
  unfold symbol at h
  split at h <;> cases h
  · exact .of_spelling rfl
  · exact .of_spelling rfl
  · cases found : Token.Kind.ofChar? c with
    | none => exact .of_free nofun rfl nofun
    | some kind => exact .of_spelling (Token.Kind.spelling?_ofChar found)

theorem lexical_string {r : List CodePoint} (h : (string r).1.token? = some (kind, literal)) :
    Token.Lexical ⟨kind, literal, p⟩ := by
  unfold string at h
  split at h <;> cases h <;> exact .of_free nofun rfl nofun

/-- What a lexeme spells is a token whose literal goes with its kind. -/
theorem lexical_split {c : CodePoint} {r : List CodePoint}
    (h : (split c r).1.token? = some (kind, literal)) : Token.Lexical ⟨kind, literal, p⟩ := by
  unfold split at h
  split at h
  · cases h
  split at h
  · cases h
  split at h
  · cases h
  split at h
  · cases h
    exact lexical_word _
  split at h
  · next digit =>
      cases h
      refine ⟨nofun, nofun, fun _ d hd => ?_⟩
      rcases List.mem_cons.1 (by simpa using hd) with rfl | hd
      · exact digit
      · exact List.all_eq_true.1 List.all_takeWhile d hd
  split at h
  · exact lexical_string h
  · exact lexical_symbol h

end Lexeme

namespace TokenStream

theorem lexical_scan (p : Position) (s : List CodePoint) :
    (∀ t ∈ (scan p s).unread, t.Lexical) ∧ (scan p s).final.kind = .eof := by
  fun_induction scan p s with
  | case1 p => exact ⟨nofun, rfl⟩
  | case2 p c r later layout ih => exact ih
  | case3 p c r later kind literal found ih =>
      refine ⟨fun t ht => ?_, ih.2⟩
      rcases List.mem_cons.1 ht with rfl | ht
      · exact Lexeme.lexical_split found
      · exact ih.1 t ht

/-- All tokens of a source text have literals that go with their kinds. -/
theorem lexical_ofSource (source : Text) : ∀ t ∈ (ofSource source).unread, t.Lexical :=
  (lexical_scan _ _).1

theorem final_ofSource (source : Text) : (ofSource source).final.kind = .eof :=
  (lexical_scan _ _).2

end TokenStream

end MonkeyLang
