import MonkeyLang.Proofs.Lexing.Newlines

/-!
# Strings without a closing quote

A string whose closing quote is missing takes up the rest of the text, whatever stands there: newlines,
comments, operators, escaped quotes. Only a backslash that ends the text is not part of it, since it has
nothing to escape: it is an illegal character by itself.

* `StringBody.hasBareQuote` decides whether a quote in a text could close a string, and
  `StringBody.dangles` whether the text ends with a backslash that escapes nothing.
* `TokenStream.scan_unclosed` is what an opening quote in front of such a text is cut into.
* `unclosed_string_reaches_end` is the result, `unclosed_string_loses_backslash` the exception.
-/

namespace MonkeyLang

/-! ## Bodies without a quote -/

namespace StringBody

/-- Is there a quote that no backslash escapes? From left to right, a backslash escapes the character
behind it. -/
def hasBareQuote : List CodePoint → Bool
  | [] => false
  | .char '\\' :: _ :: r => hasBareQuote r
  | c :: r => c = '"' || hasBareQuote r

/-- Does the text end with a backslash that escapes nothing and is not escaped? -/
def dangles : List CodePoint → Bool
  | [] => false
  | [.char '\\'] => true
  | .char '\\' :: _ :: r => dangles r
  | _ :: r => dangles r

theorem dangles_plain {c : CodePoint} (backslash : c ≠ '\\') (r : List CodePoint) :
    dangles (c :: r) = dangles r := by
  rw [dangles]
  · exact fun is _ => backslash is
  · exact fun _ _ is _ => backslash is

/-- A text without bare quotes is a whole body, and a backslash behind it if one dangles. -/
theorem exists_whole {body : List CodePoint} (unquoted : hasBareQuote body = false) :
    ∃ content, Whole content ∧ body = content ++ if dangles body then [CodePoint.char '\\'] else [] := by
  fun_induction hasBareQuote body with
  | case1 => exact ⟨[], .nil, rfl⟩
  | case2 c r ih =>
      obtain ⟨content, whole, rest⟩ := ih unquoted
      refine ⟨.char '\\' :: c :: content, .escape whole, ?_⟩
      rw [dangles, List.cons_append, List.cons_append, ← rest]
  | case3 c r other ih =>
      rw [Bool.or_eq_false_iff, decide_eq_false_iff_not] at unquoted
      by_cases backslash : c = '\\'
      · subst backslash
        cases r with
        | nil => exact ⟨[], .nil, rfl⟩
        | cons d r => exact (other d r rfl rfl).elim
      · obtain ⟨content, whole, rest⟩ := ih unquoted.2
        refine ⟨c :: content, .plain unquoted.1 backslash whole, ?_⟩
        rw [dangles_plain backslash, List.cons_append, ← rest]

/-- A whole body is part of the string, whatever follows. -/
theorem split_append_of_whole {content : List CodePoint} (whole : Whole content) (rest : List CodePoint) :
    split (content ++ rest) = (content ++ (split rest).1, (split rest).2) := by
  induction whole with
  | nil => rfl
  | plain quote backslash _ ih => rw [List.cons_append, split_plain quote backslash, ih]; rfl
  | escape _ ih => rw [List.cons_append, List.cons_append, split_escape, ih]; rfl

/-- An open string ends where the text does, or in front of a backslash that dangles. -/
theorem split_unclosed {content : List CodePoint} (whole : Whole content) (dangling : Bool) :
    split (content ++ if dangling then [CodePoint.char '\\'] else []) =
      (content, if dangling then [CodePoint.char '\\'] else []) := by
  rw [split_append_of_whole whole]
  cases dangling <;> simp [split]

end StringBody

/-! ## Open strings -/

/-- The string token of a body at a place. -/
def Token.ofBody (body : List CodePoint) (p : Position) : Token :=
  ⟨.string, Text.ofList (StringBody.decode body), p⟩

namespace TokenStream

/-- An opening quote in front of a whole body makes one token. A backslash that dangles behind the body
makes another one. -/
theorem scan_unclosed (p : Position) {content : List CodePoint} (whole : StringBody.Whole content)
    (dangling : Bool) :
    (scan p (.char '"' :: (content ++ if dangling then [CodePoint.char '\\'] else []))).unread =
      .ofBody content p ::
        if dangling then [⟨.illegal, "\\", p.after (.char '"' :: content)⟩] else [] := by
  have cut := StringBody.split_unclosed whole dangling
  have first : Lexeme.split '"' (content ++ if dangling then [CodePoint.char '\\'] else []) =
      (⟨.char '"' :: content, some (.string, Text.ofList (StringBody.decode content))⟩,
        if dangling then [CodePoint.char '\\'] else []) := by
    change Lexeme.string _ = _
    unfold Lexeme.string
    rw [cut]
    cases dangling <;> rfl
  rw [scan, first]
  dsimp only
  cases dangling with
  | false =>
      rw [if_neg Bool.false_ne_true, if_neg Bool.false_ne_true, scan]
      rfl
  | true =>
      have backslash : Lexeme.split '\\' [] = (.plain .illegal [.char '\\'], []) := rfl
      rw [if_pos rfl, if_pos rfl, scan, backslash]
      dsimp only [Lexeme.plain]
      rw [scan]
      rfl

end TokenStream

open Lexeme (closesStrings)

section

variable {s body : Text}

/-- What the tokens behind a newline and an opening quote start from. -/
theorem Position.after_newline (s : List CodePoint) :
    (start.after s).next '\n' = ⟨2 + s.count (.char '\n'), 1⟩ := by
  rw [next, if_pos rfl, line_after, Position.mk.injEq]
  exact ⟨Nat.add_right_comm 1 _ 1, rfl⟩

theorem lex_append_quote (closed : closesStrings s.toList) (body : Text) :
    lex (s ++ "\n\"" ++ body) =
      (lex s).dropLast ++
        (TokenStream.scan ⟨2 + s.toList.count (.char '\n'), 1⟩ (.char '"' :: body.toList)).unread ++
        [⟨.eof, "", Position.ofOffset (s ++ "\n\"" ++ body).toList (s ++ "\n\"" ++ body).length⟩] := by
  have text : (s ++ "\n\"" ++ body).toList = s.toList ++ .char '\n' :: .char '"' :: body.toList := by simp
  have place := Position.start_after (s ++ "\n\"" ++ body).toList []
  rw [List.append_nil, Text.length_toList] at place
  have final := TokenStream.final_scan .start (s ++ "\n\"" ++ body).toList
  have unread := congrArg TokenStream.unread
    (TokenStream.scan_append_newline .start closed (.char '"' :: body.toList))
  rw [← text, Position.after_newline] at unread
  rw [lex, TokenStream.toList, TokenStream.ofSource, final, unread, place, dropLast_lex]
  rfl

/-- Behind a text without open strings and a newline, an opening quote and a text without bare quotes
are one string token up to the end, and then comes the end marker. Only where that text ends with a
backslash that escapes nothing, this one is left over as an illegal character. -/
theorem unclosed_string_reaches_end (closed : closesStrings s.toList)
    (unquoted : StringBody.hasBareQuote body.toList = false) :
    let text := s ++ "\n\"" ++ body
    let place := Position.ofOffset text.toList
    let line := 2 + s.toList.count (.char '\n')
    (StringBody.dangles body.toList = false →
      lex text = (lex s).dropLast ++
        [.ofBody body.toList ⟨line, 1⟩, ⟨.eof, "", place text.length⟩]) ∧
    (StringBody.dangles body.toList = true →
      lex text = (lex s).dropLast ++
        [.ofBody body.toList.dropLast ⟨line, 1⟩, ⟨.illegal, "\\", place (text.length - 1)⟩,
          ⟨.eof, "", place text.length⟩]) := by
  intro text place line
  have lexed := lex_append_quote closed body
  obtain ⟨content, whole, split⟩ := StringBody.exists_whole unquoted
  have cut := TokenStream.scan_unclosed ⟨line, 1⟩ whole (StringBody.dangles body.toList)
  rw [← split] at cut
  rw [cut] at lexed
  refine ⟨fun ends => ?_, fun dangles => ?_⟩
  · rw [ends, if_neg Bool.false_ne_true, List.append_nil] at split
    rw [ends, if_neg Bool.false_ne_true, ← split] at lexed
    rw [lexed, List.append_assoc]
    rfl
  · rw [dangles, if_pos rfl] at split
    have front : content = body.toList.dropLast := by rw [split, List.dropLast_concat]
    have before : Position.mk line 1 = Position.start.after (s.toList ++ [.char '\n']) := by
      rw [Position.after_append]
      exact (Position.after_newline _).symm
    have whole : text.toList = (s.toList ++ [.char '\n']) ++ .char '"' :: content ++ [.char '\\'] := by
      simp [text, split]
    have place : (Position.mk line 1).after (.char '"' :: content) = place (text.length - 1) := by
      rw [before, ← Position.after_append, Position.start_after _ [.char '\\'], ← whole]
      congr 1
      rw [← Text.length_toList, whole]
      simp
    rw [dangles, if_pos rfl, place, front] at lexed
    rw [lexed, List.append_assoc]
    rfl

end

/-- An escaped quote, a newline, a comment and an operator do not end the string. -/
theorem unclosed_string_reaches_end_comment :
    let s : Text := "let x = \"a\";"
    let body : Text := "say \\\"b\\\" // c\n== \\n"
    closesStrings s.toList ∧ StringBody.hasBareQuote body.toList = false ∧
      StringBody.dangles body.toList = false ∧
      lex (s ++ "\n\"" ++ body) = (lex s).dropLast ++
        [⟨.string, "say \"b\" // c\n== \n", ⟨2, 1⟩⟩, ⟨.eof, "", ⟨3, 6⟩⟩] := by
  intro s body
  have closed : closesStrings s.toList := by cbv
  have unquoted : StringBody.hasBareQuote body.toList = false := by decide
  have ends : StringBody.dangles body.toList = false := by decide
  refine ⟨closed, unquoted, ends, ?_⟩
  rw [(unclosed_string_reaches_end closed unquoted).1 ends]
  cbv

/-- A backslash that ends the text is not part of the open string in front of it. -/
theorem unclosed_string_loses_backslash :
    let s : Text := "1"
    let body : Text := "ab\\"
    closesStrings s.toList ∧ StringBody.hasBareQuote body.toList = false ∧
      lex (s ++ "\n\"" ++ body) = (lex s).dropLast ++
        [⟨.string, "ab", ⟨2, 1⟩⟩, ⟨.illegal, "\\", ⟨2, 4⟩⟩, ⟨.eof, "", ⟨2, 5⟩⟩] := by
  intro s body
  exact ⟨by cbv, by decide, by cbv⟩

end MonkeyLang
