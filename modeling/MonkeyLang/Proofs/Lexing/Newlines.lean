import MonkeyLang.Proofs.Lexing.Coverage

/-!
# A newline separates lexing

No lexeme but a string reaches over a newline. So where every string has its closing quote, the text
in front of a newline is cut as if nothing came behind it, and the text behind it as if nothing came
before: only the lines of its tokens count on. A text without open strings can be lexed one line at a
time.

* `Lexeme.closesStrings` decides whether every string of a text has its closing quote.
* `Lexeme.split_append_newline` is the step: the first lexeme is cut off in the same way.
* `TokenStream.scan_down`: further down the tokens are the same, but for their lines.
* `newline_separates_lexing` is the result, for two texts and for any number of lines.
-/

namespace MonkeyLang

/-! ## Further down -/

/-- The same column so many lines further down. -/
def Position.down (n : Nat) (p : Position) : Position := ⟨p.line + n, p.column⟩

/-- The token so many lines further down. -/
def Token.down (n : Nat) (t : Token) : Token := { t with pos := t.pos.down n }

/-- The stream so many lines further down. -/
def TokenStream.down (n : Nat) (s : TokenStream) : TokenStream :=
  ⟨s.unread.map (·.down n), s.final.down n⟩

namespace Position

variable (n : Nat) (p : Position)

theorem down_down (m n : Nat) : (p.down m).down n = p.down (m + n) := by
  rw [down, down, down, Nat.add_assoc]

theorem next_down (c : CodePoint) : (p.down n).next c = (p.next c).down n := by
  by_cases newline : c = '\n'
  · simp only [next, down, if_pos newline, Nat.add_right_comm]
  · simp only [next, down, if_neg newline]

theorem after_down (cs : List CodePoint) : (p.down n).after cs = (p.after cs).down n := by
  induction cs generalizing p with
  | nil => rfl
  | cons c cs ih => rw [after_cons, after_cons, next_down, ih]

/-- Behind a newline the columns start again. -/
theorem next_newline : p.next '\n' = start.down p.line := by
  rw [next, if_pos rfl, down, start, Nat.add_comm]

end Position

theorem Token.map_down_zero (ts : List Token) : ts.map (·.down 0) = ts := List.map_id ts

theorem Token.map_down_down (m n : Nat) (ts : List Token) :
    (ts.map (·.down m)).map (·.down n) = ts.map (·.down (m + n)) := by
  rw [List.map_map]
  exact List.map_congr_left fun t _ => congrArg (Token.mk t.kind t.literal) (t.pos.down_down m n)

theorem TokenStream.toList_down (n : Nat) (s : TokenStream) :
    (s.down n).toList = s.toList.map (·.down n) := by
  rw [toList, toList, List.map_append]
  rfl

/-- A text is cut into the same tokens wherever it starts. -/
theorem TokenStream.scan_down (n : Nat) (p : Position) (s : List CodePoint) :
    scan (p.down n) s = (scan p s).down n := by
  fun_induction scan p s with
  | case1 p =>
      rw [scan]
      rfl
  | case2 p c r later separates ih =>
      rw [scan, separates, Position.after_down]
      exact ih
  | case3 p c r later kind literal found ih =>
      rw [scan, found, Position.after_down, ih]
      rfl

/-! ## Lexemes in front of a newline -/

section

variable {p : CodePoint → Bool} {d : CodePoint}

theorem takeWhile_append_stop (stops : p d = false) (r b : List CodePoint) :
    (r ++ d :: b).takeWhile p = r.takeWhile p := by
  induction r with
  | nil => rw [List.nil_append, List.takeWhile_cons_of_neg (by simp [stops]), List.takeWhile_nil]
  | cons c r ih => rw [List.cons_append, List.takeWhile_cons, List.takeWhile_cons, ih]

theorem dropWhile_append_stop (stops : p d = false) (r b : List CodePoint) :
    (r ++ d :: b).dropWhile p = r.dropWhile p ++ d :: b := by
  induction r with
  | nil => rw [List.nil_append, List.dropWhile_cons_of_neg (by simp [stops])]; rfl
  | cons c r ih =>
      rw [List.cons_append, List.dropWhile_cons, List.dropWhile_cons, ih]
      split <;> rfl

end

/-- A body that ends at a quote ends there whatever comes behind the text. -/
theorem StringBody.split_append_of_quote {r : List CodePoint}
    (closed : (split r).2.head? = some (CodePoint.char '"')) (b : List CodePoint) : split (r ++ b) = ((split r).1, (split r).2 ++ b) := by
  fun_induction split r with
  | case1 => cases closed
  | case2 r => exact split_quote (r ++ b)
  | case3 => cases closed
  | case4 d r body rest cut _ ih =>
      rw [cut] at ih
      rw [List.cons_append, List.cons_append, split_escape, ih closed]
  | case5 c r quote backslash body rest cut ih =>
      rw [cut] at ih
      rw [List.cons_append, split_plain quote backslash, ih closed]

namespace Lexeme

/-- Does every string of the text have its closing quote? -/
def closesStrings (s : List CodePoint) : Bool :=
  match s with
  | [] => true
  | c :: r =>
    (c ≠ '"' || (StringBody.split r).2.head? = some (CodePoint.char '"')) && closesStrings (split c r).2
termination_by s.length
decreasing_by exact Nat.lt_succ_of_le (length_rest_le c r)

variable {c : CodePoint} {r : List CodePoint}

/-- The first lexeme is no open string, and behind it there is none. -/
theorem closesStrings_cons (closed : closesStrings (c :: r)) :
    (c = '"' → (StringBody.split r).2.head? = some (CodePoint.char '"')) ∧ closesStrings (split c r).2 := by
  rw [closesStrings] at closed
  simp only [Bool.and_eq_true, Bool.or_eq_true, decide_eq_true_eq] at closed
  exact ⟨fun quote => closed.1.resolve_left (not_not.2 quote), closed.2⟩

theorem run_append_stop {p : CodePoint → Bool} {d : CodePoint} (stops : p d = false)
    (make : List CodePoint → Lexeme) (c : CodePoint) (r b : List CodePoint) :
    run p make c (r ++ d :: b) = ((run p make c r).1, (run p make c r).2 ++ d :: b) := by
  rw [run, takeWhile_append_stop stops, dropWhile_append_stop stops]
  rfl

theorem string_append_of_quote (closed : (StringBody.split r).2.head? = some (CodePoint.char '"'))
    (b : List CodePoint) : string (r ++ b) = ((string r).1, (string r).2 ++ b) := by
  obtain ⟨rest, cut⟩ := List.head?_eq_some_iff.1 closed
  unfold string
  rw [StringBody.split_append_of_quote closed, cut]
  rfl

/-- A symbol of two characters is there before the newline comes, or not at all. -/
theorem symbol_append_newline (c : CodePoint) (r b : List CodePoint) :
    symbol c (r ++ .char '\n' :: b) = ((symbol c r).1, (symbol c r).2 ++ .char '\n' :: b) := by
  unfold symbol
  split
  · next both =>
    cases r with
    | nil => cases both
    | cons d r =>
        cases both
        rfl
  · next both =>
    cases r with
    | nil => cases both
    | cons d r =>
        cases both
        rfl
  · next noEq noNotEq =>
    split
    · exact (noEq _ rfl rfl).elim
    · exact (noNotEq _ rfl rfl).elim
    · rfl

/-- In front of a newline the first lexeme of a text is cut off as it is at the end, unless it is an
open string. -/
theorem split_append_newline (closed : c = '"' → (StringBody.split r).2.head? = some (CodePoint.char '"'))
    (b : List CodePoint) :
    split c (r ++ .char '\n' :: b) = ((split c r).1, (split c r).2 ++ .char '\n' :: b) := by
  have slash : (r ++ .char '\n' :: b).head? = some (CodePoint.char '/') ↔
      r.head? = some (CodePoint.char '/') := by
    cases r <;> simp
  unfold split
  simp only [slash]
  split
  · rfl
  split
  · exact run_append_stop (by decide) ..
  split
  · exact run_append_stop (by decide) ..
  split
  · exact run_append_stop (by decide) ..
  split
  · exact run_append_stop (by decide) ..
  split
  · next quote => exact string_append_of_quote (closed quote) _
  · exact symbol_append_newline ..

end Lexeme

open Lexeme (closesStrings)

/-! ## All tokens -/

namespace TokenStream

/-- Behind a text without open strings and a newline, the tokens start anew. -/
theorem scan_append_newline (p : Position) {a : List CodePoint} (closed : closesStrings a)
    (b : List CodePoint) :
    scan p (a ++ .char '\n' :: b) =
      ⟨(scan p a).unread ++ (scan ((p.after a).next '\n') b).unread,
        (scan ((p.after a).next '\n') b).final⟩ := by
  fun_induction scan p a with
  | case1 p =>
      rw [List.nil_append, scan]
      rfl
  | case2 p c r later separates ih =>
      obtain ⟨first, closed⟩ := Lexeme.closesStrings_cons closed
      rw [List.cons_append, scan, Lexeme.split_append_newline first, Position.after_split p]
      dsimp only
      rw [separates]
      exact ih closed
  | case3 p c r later kind literal found ih =>
      obtain ⟨first, closed⟩ := Lexeme.closesStrings_cons closed
      rw [List.cons_append, scan, Lexeme.split_append_newline first, Position.after_split p]
      dsimp only
      rw [found]
      dsimp only
      rw [ih closed]
      rfl

/-- Behind a text without open strings and a newline, the stream is the one of what follows, so many
lines further down. -/
theorem ofSource_append_newline {a : Text} (closed : closesStrings a.toList) (b : Text) :
    ofSource (a ++ "\n" ++ b) =
      ⟨(ofSource a).unread ++ ((ofSource b).down (1 + a.toList.count (.char '\n'))).unread,
        ((ofSource b).down (1 + a.toList.count (.char '\n'))).final⟩ := by
  have text : (a ++ "\n" ++ b).toList = a.toList ++ .char '\n' :: b.toList := by simp
  have line : (Position.start.after a.toList).line = 1 + a.toList.count (.char '\n') :=
    Position.line_after ..
  rw [ofSource, text, scan_append_newline _ closed, Position.next_newline, line, scan_down]
  rfl

end TokenStream

/-- The tokens of a text are those of its stream, without the end marker. -/
theorem dropLast_lex (source : Text) :
    (lex source).dropLast = (TokenStream.ofSource source).unread := by
  rw [lex, TokenStream.toList, List.dropLast_concat]

theorem lex_append_newline {a : Text} (closed : closesStrings a.toList) (b : Text) :
    lex (a ++ "\n" ++ b) =
      (lex a).dropLast ++ (lex b).map (·.down (1 + a.toList.count (.char '\n'))) := by
  rw [lex, TokenStream.ofSource_append_newline closed, dropLast_lex, lex, ← TokenStream.toList_down,
    TokenStream.toList, TokenStream.toList, List.append_assoc]

/-- Lines without open strings are lexed one at a time. -/
theorem lex_lines {lines : List Text}
    (each : ∀ line ∈ lines, CodePoint.char '\n' ∉ line.toList ∧ closesStrings line.toList) (last : Text) :
    lex (Text.intercalate "\n" (lines ++ [last])) =
      (lines.zipIdx.flatMap fun p => (lex p.1).dropLast.map (·.down p.2)) ++
        (lex last).map (·.down lines.length) := by
  induction lines with
  | nil =>
      rw [List.length_nil, Token.map_down_zero]
      simp
  | cons line lines ih =>
      rw [List.forall_mem_cons] at each
      obtain ⟨⟨single, closed⟩, each⟩ := each
      have text : Text.intercalate "\n" (line :: lines ++ [last]) =
          line ++ "\n" ++ Text.intercalate "\n" (lines ++ [last]) := by
        cases lines <;> exact Text.intercalate_cons_cons ..
      have once : 1 + line.toList.count (.char '\n') = 1 := by rw [List.count_eq_zero.2 single]
      -- The other lines stand one line further down than without the first.
      have others : (lines.zipIdx.flatMap fun p =>
            (lex p.1).dropLast.map (·.down p.2)).map (·.down 1) =
          (lines.zipIdx 1).flatMap fun p => (lex p.1).dropLast.map (·.down p.2) := by
        rw [List.map_flatMap, List.zipIdx_succ, List.flatMap_map]
        exact List.flatMap_congr fun _ _ => Token.map_down_down ..
      rw [text, lex_append_newline closed, once, ih each, List.map_append, others,
        Token.map_down_down, List.zipIdx_cons, List.flatMap_cons, Token.map_down_zero,
        List.append_assoc, List.length_cons]

/-- The tokens of a text without open strings, a newline and another text are those of the first text
without its end marker, and those of the second so many lines further down as the first has newlines,
and one more. So any number of lines without open strings, and what follows them, are lexed one line at
a time. -/
theorem newline_separates_lexing :
    (∀ a b : Text, closesStrings a.toList →
      lex (a ++ "\n" ++ b) =
        (lex a).dropLast ++ (lex b).map (·.down (1 + a.toList.count (.char '\n')))) ∧
    ∀ (lines : List Text) (last : Text),
      (∀ line ∈ lines, CodePoint.char '\n' ∉ line.toList ∧ closesStrings line.toList) →
      lex (Text.intercalate "\n" (lines ++ [last])) =
        (lines.zipIdx.flatMap fun p => (lex p.1).dropLast.map (·.down p.2)) ++
          (lex last).map (·.down lines.length) :=
  ⟨fun _ b closed => lex_append_newline closed b, fun _ last each => lex_lines each last⟩

/-- Behind a string over two lines and a comment with a quote, the next line starts with an operator
that the text before could have made longer. -/
theorem newline_separates_lexing_comment :
    let a : Text := "x = \"s\nt\" ! // \" ="
    let b : Text := "= \"u\nv"
    closesStrings a.toList ∧
      lex (a ++ "\n" ++ b) = (lex a).dropLast ++ (lex b).map (·.down 2) ∧
      (lex b).map (·.down 2) = [⟨.assign, "=", ⟨3, 1⟩⟩, ⟨.string, "u\nv", ⟨3, 3⟩⟩,
        ⟨.eof, "", ⟨4, 2⟩⟩] ∧
      lex "1\n=\n=" = [⟨.int, "1", ⟨1, 1⟩⟩, ⟨.assign, "=", ⟨2, 1⟩⟩, ⟨.assign, "=", ⟨3, 1⟩⟩,
        ⟨.eof, "", ⟨3, 2⟩⟩] := by
  intro a b
  have closed : closesStrings a.toList := by cbv
  have lines : ∀ line ∈ [Text.ofString "1", Text.ofString "="],
      CodePoint.char '\n' ∉ line.toList ∧ closesStrings line.toList := by
    intro line mem
    simp only [List.mem_cons, List.not_mem_nil, or_false] at mem
    rcases mem with rfl | rfl
    · exact ⟨by decide, by cbv⟩
    · exact ⟨by decide, by cbv⟩
  have single := newline_separates_lexing.2 _ "=" lines
  have lower : 1 + a.toList.count (.char '\n') = 2 := by decide
  have two := newline_separates_lexing.1 a b closed
  rw [lower] at two
  refine ⟨closed, two, by cbv, ?_⟩
  have text : Text.intercalate "\n" ([Text.ofString "1", Text.ofString "="] ++ [Text.ofString "="]) =
      "1\n=\n=" := by decide
  rw [text] at single
  rw [single]
  cbv

end MonkeyLang
