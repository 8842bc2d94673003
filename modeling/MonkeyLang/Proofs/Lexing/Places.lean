import MonkeyLang.Proofs.Lexing.Words

/-!
# Names at their places

The position of a token is reached by reading the text before it. For a name behind a keyword more
can be said: it is a whole name there, with nothing that could be part of it on either side.

* `Position.line_after` and `Position.column_after` tell the position behind a text from the
  newlines in it.
* `TokenStream.nameIn_scan`: an identifier behind `let` is a whole name at its place.
-/

namespace MonkeyLang

/-! ## Positions -/

/-- What stands behind the last newline of a text. -/
def Text.openLine : List CodePoint → List CodePoint
  | [] => []
  | c :: r => if CodePoint.char '\n' ∈ c :: r then openLine r else c :: r

/-- Without a newline a text is its own last line. -/
theorem Text.openLine_eq_self {cs : List CodePoint} (none : CodePoint.char '\n' ∉ cs) :
    openLine cs = cs := by
  cases cs with
  | nil => rfl
  | cons c cs => rw [openLine, if_neg none]

theorem Text.openLine_suffix (cs : List CodePoint) : openLine cs <:+ cs := by
  induction cs with
  | nil => exact List.suffix_refl _
  | cons c cs ih =>
      rw [openLine]
      split
      · exact ih.trans (List.suffix_cons c cs)
      · exact List.suffix_refl _

namespace Position

theorem line_after (p : Position) (cs : List CodePoint) :
    (p.after cs).line = p.line + cs.count (.char '\n') := by
  induction cs generalizing p with
  | nil => rfl
  | cons c cs ih =>
      rw [after_cons, ih, next]
      by_cases newline : c = '\n'
      · subst newline
        rw [if_pos rfl, List.count_cons_self]
        dsimp only
        omega
      · rw [if_neg newline, List.count_cons_of_ne newline]

theorem column_after (p : Position) (cs : List CodePoint) :
    (p.after cs).column =
      if CodePoint.char '\n' ∈ cs then (Text.openLine cs).length + 1 else p.column + cs.length := by
  induction cs generalizing p with
  | nil => rfl
  | cons c cs ih =>
      rw [after_cons, ih, next, Text.openLine]
      by_cases newline : c = '\n'
      · subst newline
        by_cases more : CodePoint.char '\n' ∈ cs
        · simp [more]
        · simp [more, Text.openLine_eq_self more, Nat.add_comm]
      · by_cases more : CodePoint.char '\n' ∈ cs
        · simp [more]
        · simp only [more, newline, Ne.symm newline, List.mem_cons, or_self, if_false,
            List.length_cons]
          omega

/-- From the first place on, the column counts what stands in the last line. -/
theorem column_after_start (cs : List CodePoint) :
    (start.after cs).column = (Text.openLine cs).length + 1 := by
  rw [column_after]
  split
  · rfl
  · next none => rw [Text.openLine_eq_self none, Nat.add_comm]; rfl

end Position

/-! ## Names -/

namespace Lexeme

variable {c : CodePoint} {r : List CodePoint} {kind : Token.Kind} {literal : Text}

/-- Identifiers and the keyword `let` are words. -/
theorem split_of_word (spelled : (split c r).1.token? = some (kind, literal))
    (named : kind = .ident ∨ kind = .kwLet) :
    isIdentStart c ∧ split c r = run isIdentPart word c r := by
  have other {k : Token.Kind} (h : k ≠ .ident ∧ k ≠ .kwLet) : kind ≠ k := by
    rintro rfl
    exact named.elim h.1 h.2
  unfold split at spelled ⊢
  split at spelled
  · cases spelled
  split at spelled
  · cases spelled
  split at spelled
  · cases spelled
  split at spelled
  · next newline blank comment start =>
    rw [if_neg newline, if_neg blank, if_neg comment, if_pos start]
    exact ⟨start, rfl⟩
  split at spelled
  · cases spelled
    exact absurd rfl (other (k := .int) (by decide))
  split at spelled
  · unfold string at spelled
    split at spelled <;> cases spelled <;> exact absurd rfl (other (k := .string) (by decide))
  · unfold symbol at spelled
    split at spelled <;> cases spelled
    · exact absurd rfl (other (k := .eq) (by decide))
    · exact absurd rfl (other (k := .notEq) (by decide))
    · unfold Token.Kind.ofChar? at other
      split at other <;> exact absurd rfl (other (by decide))

theorem apart_dropWhile (r : List CodePoint) : Apart (r.dropWhile isIdentPart) := by
  intro c head
  have := List.head?_dropWhile_not isIdentPart r
  rw [head] at this
  simpa using this

theorem parts_of_start (start : isIdentStart c) (r : List CodePoint) :
    ∀ d ∈ c :: r.takeWhile isIdentPart, isIdentPart d := by
  intro d mem
  rcases List.mem_cons.1 mem with rfl | mem
  · unfold isIdentStart at start
    unfold isIdentPart CodePoint.isAlphanum
    rcases Bool.or_eq_true_iff.1 start with alpha | underscore
    · simp [alpha]
    · simp [underscore]
  · exact List.all_eq_true.1 List.all_takeWhile d mem

/-- Between layout and a name stands nothing that could be part of the name. -/
theorem layout_ends (layout_ : (split c r).1.token? = none) {d : CodePoint} {behind : List CodePoint}
    (next : (split c r).2 = d :: behind) (part : isIdentPart d) :
    ∃ b, (split c r).1.text.getLast? = some b ∧ isIdentPart b = false := by
  unfold split at layout_ next ⊢
  split at layout_
  · next newline =>
    subst newline
    exact ⟨'\n', by simp [layout], by decide⟩
  split at layout_
  · next newline blank =>
    have blanks : ∀ b ∈ c :: r.takeWhile isBlank, isBlank b := by
      intro b mem
      rcases List.mem_cons.1 mem with rfl | mem
      · exact blank
      · exact List.all_eq_true.1 List.all_takeWhile b mem
    rw [if_neg newline, if_pos blank]
    cases last : (c :: r.takeWhile isBlank).getLast? with
    | none => simp at last
    | some b =>
        refine ⟨b, last, ?_⟩
        have isBlank_ := blanks b (List.mem_of_getLast? last)
        simp only [isBlank, Bool.or_eq_true, decide_eq_true_eq] at isBlank_
        rcases isBlank_ with (rfl | rfl) | rfl <;> decide
  split at layout_
  · next newline blank comment =>
    -- A comment ends before a newline, so that no name can follow it.
    rw [if_neg newline, if_neg blank, if_pos comment] at next
    have head := List.head?_dropWhile_not (· ≠ CodePoint.char '\n') r
    change r.dropWhile (· ≠ CodePoint.char '\n') = d :: behind at next
    rw [next] at head
    have : d = '\n' := by simpa using head
    subst this
    exact absurd part (by decide)
  split at layout_
  · cases layout_
  split at layout_
  · cases layout_
  split at layout_
  · unfold string at layout_
    split at layout_ <;> cases layout_
  · unfold symbol at layout_
    split at layout_ <;> cases layout_

end Lexeme

namespace TokenStream

open Lexeme (Apart)

/-- The token is a whole name in the text, and stands at the position behind what is before it. -/
structure NameIn (p : Position) (before name behind : List CodePoint) (t : Token) : Prop where
  literal : t.literal.toList = name
  pos : t.pos = p.after before
  filled : name ≠ []
  parts : ∀ c ∈ name, isIdentPart c
  apart : Apart behind

/-- What is a name behind a lexeme is one in the whole text. -/
theorem NameIn.later {p : Position} {c : CodePoint} {r before name behind : List CodePoint} {t : Token}
    (named : NameIn (p.after (Lexeme.split c r).1.text) before name behind t)
    (rest : (Lexeme.split c r).2 = before ++ (name ++ behind)) :
    c :: r = ((Lexeme.split c r).1.text ++ before) ++ (name ++ behind) ∧
      NameIn p ((Lexeme.split c r).1.text ++ before) name behind t := by
  refine ⟨?_, { named with pos := by rw [named.pos, Position.after_append] }⟩
  rw [List.append_assoc, ← rest, Lexeme.split_append]

/-- The first token of a text, if it is an identifier, is a whole name in it: layout is all that
comes before. -/
theorem nameIn_scan_head {p : Position} {s : List CodePoint} {t : Token} {ts : List Token}
    (first : (scan p s).unread = t :: ts) (ident : t.kind = .ident) :
    ∃ before name behind, s = before ++ (name ++ behind) ∧ NameIn p before name behind t ∧
      (before = [] ∨ ∃ b, before.getLast? = some b ∧ isIdentPart b = false) := by
  fun_induction scan p s with
  | case1 p => cases first
  | case2 p c r later layout ih =>
      obtain ⟨before, name, behind, rest, named, ended⟩ := ih first
      obtain ⟨whole, named'⟩ := named.later rest
      refine ⟨_, name, behind, whole, named', .inr ?_⟩
      rcases ended with rfl | ⟨b, last, ended⟩
      · cases name with
        | nil => exact absurd rfl named.filled
        | cons d name =>
            rw [List.append_nil]
            exact Lexeme.layout_ends layout rest (named.parts d (.head _))
      · exact ⟨b, by simp [List.getLast?_append, last], ended⟩
  | case3 p c r later kind literal found ih =>
      cases first
      obtain ⟨start, split⟩ := Lexeme.split_of_word found (.inl ident)
      rw [split] at found
      cases found
      refine ⟨[], c :: r.takeWhile isIdentPart, r.dropWhile isIdentPart, by simp, ?_, .inl rfl⟩
      exact ⟨by simp, rfl, List.cons_ne_nil _ _, Lexeme.parts_of_start start r,
        Lexeme.apart_dropWhile r⟩

/-- An identifier behind `let` is a whole name in the text. -/
theorem nameIn_scan {p : Position} {s : List CodePoint} {l t : Token}
    (found : [l, t] <:+: (scan p s).unread) (keyword : l.kind = .kwLet) (ident : t.kind = .ident) :
    ∃ before name behind, s = before ++ (name ++ behind) ∧ NameIn p before name behind t ∧
      ∃ b, before.getLast? = some b ∧ isIdentPart b = false := by
  fun_induction scan p s with
  | case1 p => simp at found
  | case2 p c r later layout ih =>
      obtain ⟨before, name, behind, rest, named, b, last, ended⟩ := ih found
      obtain ⟨whole, named'⟩ := named.later rest
      exact ⟨_, name, behind, whole, named', b, by simp [List.getLast?_append, last], ended⟩
  | case3 p c r later kind literal spelled ih =>
      rcases List.infix_cons_iff.1 found with first | further
      · obtain ⟨rfl, ⟨ts, next⟩⟩ := List.cons_prefix_cons.1 first
        obtain ⟨before, name, behind, rest, named, ended⟩ := nameIn_scan_head next.symm ident
        obtain ⟨whole, named'⟩ := named.later rest
        -- The name cannot follow the keyword at once: the keyword would be longer.
        have apart : Apart (Lexeme.split c r).2 := by
          rw [(Lexeme.split_of_word spelled (.inr keyword)).2]
          exact Lexeme.apart_dropWhile r
        rcases ended with rfl | ⟨b, last, ended⟩
        · cases name with
          | nil => exact absurd rfl named.filled
          | cons d name =>
              have inside := named.parts d (.head _)
              rw [apart d (by rw [rest]; rfl)] at inside
              cases inside
        · exact ⟨_, name, behind, whole, named', b, by simp [List.getLast?_append, last], ended⟩
      · obtain ⟨before, name, behind, rest, named, b, last, ended⟩ := ih further
        obtain ⟨whole, named'⟩ := named.later rest
        exact ⟨_, name, behind, whole, named', b, by simp [List.getLast?_append, last], ended⟩

end TokenStream

end MonkeyLang
