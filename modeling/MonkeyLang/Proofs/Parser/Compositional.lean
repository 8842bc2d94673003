import MonkeyLang.Proofs.Parser.Bounds
import MonkeyLang.Proofs.Parser.Completeness
import MonkeyLang.Proofs.Parser.Soundness

/-!
# Reading one text behind another

A semicolon closes what stands before it. Where the tokens of a text in order end in one, they are
read as the same statements whatever follows them, and what follows is read as if it stood alone.

* `Derives.closing`: no phrase that a semicolon may follow ends in a semicolon itself.
* `result_statementsWhile_append`: closed statements are read, and then what is behind them.
* `parseTokens_append`: the texts of two streams of tokens, one behind the other.
-/

namespace MonkeyLang

/-! ## Last tokens -/

namespace Grammar

/-- Can an expression end with such a token? -/
def closes : Token.Kind → Bool
  | .ident | .int | .string | .kwTrue | .kwFalse | .rparen | .rbracket | .rbrace => true
  | _ => false

/-- The tokens end with one that can be the last of an expression. -/
def Closing (ts : List Token) : Prop := ∃ init t, ts = init ++ [t] ∧ closes t.kind

section

variable {t u : Token} {ts us : List Token}

theorem Closing.of_last (last : closes u.kind) : Closing (ts ++ [u]) := ⟨ts, u, rfl, last⟩

theorem Closing.cons (h : Closing ts) (t : Token) : Closing (t :: ts) := by
  obtain ⟨init, u, rfl, last⟩ := h
  exact ⟨t :: init, u, rfl, last⟩

theorem Closing.behind (h : Closing us) (ts : List Token) : Closing (ts ++ us) := by
  obtain ⟨init, u, rfl, last⟩ := h
  exact ⟨ts ++ init, u, (List.append_assoc ..).symm, last⟩

/-- The tokens end in a semicolon, if there are any. -/
def Closed (ts : List Token) : Prop := ∀ t ∈ ts.getLast?, t.kind = .semicolon

theorem Closing.not_closed (h : Closing ts) : ¬ Closed ts := by
  obtain ⟨init, u, rfl, last⟩ := h
  intro closed
  rw [closed u List.getLast?_concat] at last
  cases last

theorem Closed.of_append (h : Closed (ts ++ us)) : Closed us := by
  intro t last
  refine h t ?_
  rw [List.getLast?_append, Option.mem_def.1 last]
  rfl

end

/-- Phrases that end with a last token of their own. -/
def Phrase.IsClosing : Phrase → Prop
  | .expr _ _ | .item _ _ | .function _ _ | .block _ | .stmt _ => True
  | _ => False

theorem Derives.closing {phrase : Phrase} {ts : List Token} (h : Derives phrase ts)
    (own : phrase.IsClosing) : Closing ts := by
  induction h with
  | ident is | int is | str is | kwTrue is | kwFalse is | parameter is =>
      exact ⟨[], _, rfl, by rw [is]; rfl⟩
  | group _ _ is | array _ _ is | hash _ _ is | block _ _ is =>
      exact (Closing.of_last (by rw [is]; rfl)).cons _
  | call _ _ _ is | index _ _ _ is =>
      exact ((Closing.of_last (by rw [is]; rfl)).cons _).behind _
  | ifThen _ _ _ _ _ _ body => exact ((((body trivial).cons _).behind _).cons _).cons _
  | ifElse _ _ _ _ _ _ _ _ _ body =>
      exact ((((((body trivial).cons _).behind _).cons _).behind _).cons _).cons _
  | fnLit _ _ ih | macroLit _ _ ih | unary _ _ _ ih | returnStmt _ _ ih => exact (ih trivial).cons _
  | binary _ _ _ _ _ _ ih => exact ((ih trivial).cons _).behind _
  | expression _ ih | exprStmt _ ih => exact ih trivial
  | function _ _ _ _ _ ih => exact (((ih trivial).cons _).behind _).cons _
  | letStmt _ _ _ _ ih => exact (((ih trivial).cons _).cons _).cons _
  | _ => cases own

end Grammar

namespace Parser

open Grammar

variable {final : Token} {more : Token.Kind → Bool} {stmt : Parse Node}

/-! ## Closed statements -/

/-- The outcome of reading the statements `ss` and others behind them. -/
def behind (ss : List Node) (others : Option (List Node) × Cursor) : Option (List Node) × Cursor :=
  (others.1.map (ss ++ ·), others.2)

theorem behind_nil (others : Option (List Node) × Cursor) : behind [] others = others := by
  simp [behind]

theorem behind_cons (s : Node) (ss : List Node) (others : Option (List Node) × Cursor) :
    behind [s] (behind ss others) = behind (s :: ss) others := by
  simp [behind, Function.comp_def]

/-- A statement that is read without a mistake stands before the others. -/
theorem result_statementsWhile_of_reads [IsEnd final] {ts us : List Token} {s : Node} {bound : Nat}
    (go : more (headKind ts)) (first : Reads final stmt ts s us) :
    result (statementsWhile more stmt (bound + 1)) ⟨⟨ts, final⟩, []⟩ =
      behind [s] (result (statementsWhile more stmt bound) ⟨⟨us, final⟩, []⟩) := by
  change result (if more (TokenStream.peek ⟨ts, final⟩).kind then _ else _) _ = _
  rw [peek_kind, if_pos go, result_bind, result_optional, first]
  dsimp only
  rw [result_bind]
  rcases result (statementsWhile more stmt bound) ⟨⟨us, final⟩, []⟩ with ⟨_ | ss, k⟩ <;> rfl

/-- A statement starts with a token that does not continue the one before. -/
theorem stops_of_opensStmt {us : List Token} (starts : opensStmt (headKind us))
    (ends : continues (headKind us) = false) (rest : List Token) : Stops .lowest (us ++ rest) := by
  rw [Stops, Level.lowest_admits, headKind_append (ne_eof_of_opensStmt starts)]
  refine ⟨ends, fun else_ => ?_⟩
  rw [else_] at starts
  cases starts

/-- The first of some closed statements is read in the same way whatever follows them, and leaves
closed statements. -/
theorem reads_first_of_closed (final : Token) [IsEnd final] {s : Node} {ss : List Node}
    {ts : List Token} (derived : Derives (.stmts (s :: ss)) ts) (closed : Closed ts) :
    ∃ us, Derives (.stmts ss) us ∧ Closed us ∧ us.length < ts.length ∧ opensStmt (headKind ts) ∧
      ∀ depth rest, (ts ++ rest).length < depth →
        Reads final (statement (expression depth)) (ts ++ rest) s (us ++ rest) := by
  cases derived with
  | @closed t _ _ vs us first semicolon others =>
      refine ⟨us, others, fun u last => closed u ?_, ?_, ?_, fun depth rest short => ?_⟩
      · rw [List.getLast?_append, List.getLast?_cons, Option.mem_def.1 last]
        rfl
      · rw [List.length_append, List.length_cons]
        omega
      · rw [headKind_append (ne_eof_of_opensStmt first.starts)]
        exact first.starts
      · rw [List.append_assoc] at short ⊢
        have reads : Complete final (.stmt s) vs := complete first
        exact reads short (Complete.stops_of_kind semicolon rfl nofun)
          (.inl ⟨t, semicolon, rfl⟩)
  | @unclosed _ _ vs us first ends noSemicolon others =>
      have taken := List.length_pos_iff.2 first.stmt_ne_nil
      refine ⟨us, others, closed.of_append, ?_, ?_, fun depth rest short => ?_⟩
      · rw [List.length_append]
        omega
      · rw [headKind_append (ne_eof_of_opensStmt first.starts)]
        exact first.starts
      · rcases others.starts with rfl | starts
        · rw [List.append_nil] at closed
          exact absurd closed (first.closing trivial).not_closed
        · rw [List.append_assoc] at short ⊢
          have reads : Complete final (.stmt s) vs := complete first
          refine reads short (stops_of_opensStmt starts ends rest) (.inr ⟨?_, rfl⟩)
          rwa [headKind_append (ne_eof_of_opensStmt starts)]

/-- Closed statements are read as if nothing followed, and then what follows is read. -/
theorem result_statementsWhile_append (final : Token) [IsEnd final] {depth : Nat}
    {rest : List Token} (goes : ∀ kind, opensStmt kind → more kind) {ss : List Node}
    {ts : List Token} (derived : Derives (.stmts ss) ts) (closed : Closed ts)
    (short : (ts ++ rest).length < depth) {bound : Nat} (enough : (ts ++ rest).length ≤ bound) :
    ∃ bound', rest.length ≤ bound' ∧
      result (statementsWhile more (statement (expression depth)) bound) ⟨⟨ts ++ rest, final⟩, []⟩ =
        behind ss (result (statementsWhile more (statement (expression depth)) bound')
          ⟨⟨rest, final⟩, []⟩) := by
  induction ss generalizing ts bound with
  | nil =>
      cases derived with
      | noStmt => exact ⟨bound, enough, (behind_nil _).symm⟩
  | cons s ss ih =>
      obtain ⟨us, others, closed, fewer, starts, first⟩ :=
        reads_first_of_closed final derived closed
      have reads := first depth rest short
      rw [List.length_append] at short enough
      cases bound with
      | zero => omega
      | succ bound =>
          have go : more (headKind (ts ++ rest)) := by
            rw [headKind_append (ne_eof_of_opensStmt starts)]
            exact goes _ starts
          obtain ⟨bound', great, read⟩ := ih others closed (by rw [List.length_append]; omega)
            (show (us ++ rest).length ≤ bound by rw [List.length_append]; omega)
          refine ⟨bound', great, ?_⟩
          rw [result_statementsWhile_of_reads go reads, read, behind_cons]

/-! ## Programs -/

/-- Bounds that are greater than a text needs do not change how its statements are read. -/
theorem statementsWhile_same (last : more .eof = false) {n depth bound : Nat} (deep : n < depth)
    (great : n ≤ bound) :
    SameBelow (n + 1) (statementsWhile more (statement (expression depth)) bound)
      (statementsWhile more (statement (expression (n + 1))) n) := by
  cases depth with
  | zero => exact absurd deep (Nat.not_lt_zero n)
  | succ depth =>
      have (level : Level) :
          SameBelow (n + 1) (expression (depth + 1) level) (expression (n + 1) level) :=
        terminates_descend.same deep level
      have inner : SameBelow (n + 1) (statementsWhile more (statement (expression (depth + 1))) n)
          (statementsWhile more (statement (expression (n + 1))) n) := inferInstance
      exact .trans ((terminates_statements last).same great ()) inner

theorem parseTokens_of_result {tokens : TokenStream} {p : Node} {k : Cursor}
    (read : result program ⟨tokens, []⟩ = (some p, k)) :
    parseTokens tokens = ⟨p, k.reported.reverse⟩ := by
  change Parsing.mk ((result program ⟨tokens, []⟩).1.getD .missing)
    (result program ⟨tokens, []⟩).2.reported.reverse = _
  rw [read]
  rfl

end Parser

open Grammar MonkeyLang.Parser

/-- Where the tokens of a text in order end in a semicolon, other tokens behind them are read as if
they stood alone: the statements are those of both texts, and the mistakes are those of the second,
at their places there, whatever is wrong with it. -/
theorem parseTokens_append {a b : List Token} {endA endB : Token} (endsA : endA.kind = .eof)
    (endsB : endB.kind = .eof) (inside : ∀ t ∈ a, t.kind ≠ .eof)
    (accepted : (parseTokens ⟨a, endA⟩).errors = [])
    (closed : ∀ t ∈ a.getLast?, t.kind = .semicolon) :
    (parseTokens ⟨a ++ b, endB⟩).program = .program ((parseTokens ⟨a, endA⟩).program.statements ++
        (parseTokens ⟨b, endB⟩).program.statements) ∧
      (parseTokens ⟨a ++ b, endB⟩).diagnostics = (parseTokens ⟨b, endB⟩).diagnostics ∧
      (parseTokens ⟨a ++ b, endB⟩).errors = (parseTokens ⟨b, endB⟩).errors := by
  have : IsEnd endB := ⟨endsB⟩
  have derived : Derives (.program (parseTokens ⟨a, endA⟩).program) a :=
    derives_of_accepted endsA inside accepted
  obtain ⟨ss, _, -, readA, -⟩ := exists_result_program ⟨a, endA⟩ endsA
  obtain ⟨ts, kb, resultB, readB, -⟩ := exists_result_program ⟨b, endB⟩ endsB
  obtain ⟨us, kab, resultAB, readAB, -⟩ := exists_result_program ⟨a ++ b, endB⟩ endsB
  dsimp only at resultB resultAB
  rw [parseTokens_of_result readA] at derived ⊢
  cases derived with
  | program derived =>
      have goes : ∀ kind, opensStmt kind → (kind != .eof) := by
        intro kind
        cases kind <;> decide
      obtain ⟨bound, great, read⟩ := result_statementsWhile_append endB goes derived
        closed (Nat.lt_succ_self _) (Nat.le_refl (a ++ b).length)
      -- The bounds of the whole text serve the second one as well as its own.
      have deep : b.length < (a ++ b).length + 1 :=
        Nat.lt_succ_of_le (List.sublist_append_right a b).length_le
      have bounds : SameBelow (b.length + 1)
          (statementsWhile (· != .eof) (statement (expression ((a ++ b).length + 1))) bound)
          (statementsWhile (· != .eof) (statement (expression (b.length + 1))) b.length) :=
        statementsWhile_same rfl deep great
      rw [bounds.same ⟨⟨b, endB⟩, []⟩ endsB (Nat.lt_succ_self _), resultB] at read
      have joined : (some us, kab) = behind ss (some ts, kb) := resultAB.symm.trans read
      cases joined
      rw [Parsing.errors, Parsing.errors, parseTokens_of_result readB,
        parseTokens_of_result readAB]
      exact ⟨rfl, rfl, rfl⟩

/-- A definition in order, and behind it two mistakes and a statement. -/
theorem parseTokens_append_mistakes :
    let a : List Token := [⟨.kwLet, "let", ⟨1, 1⟩⟩, ⟨.ident, "x", ⟨1, 5⟩⟩, ⟨.assign, "=", ⟨1, 7⟩⟩,
      ⟨.int, "5", ⟨1, 9⟩⟩, ⟨.semicolon, ";", ⟨1, 10⟩⟩]
    let b : List Token := [⟨.kwLet, "let", ⟨2, 1⟩⟩, ⟨.rparen, ")", ⟨2, 5⟩⟩, ⟨.ident, "x", ⟨2, 7⟩⟩]
    let final : Token := ⟨.eof, "", ⟨2, 8⟩⟩
    (parseTokens ⟨a ++ b, final⟩).program.statements.length = 3 ∧
      (parseTokens ⟨a ++ b, final⟩).diagnostics =
        [⟨.unexpected .ident .rparen, ⟨2, 5⟩⟩, ⟨.noOperand .rparen, ⟨2, 5⟩⟩] := by
  intro a b final
  have inside : ∀ t ∈ a, t.kind ≠ .eof := by decide
  have closed : ∀ t ∈ a.getLast?, t.kind = .semicolon := by decide
  obtain ⟨program, diagnostics, -⟩ :=
    parseTokens_append (b := b) (show final.kind = .eof from rfl) (show final.kind = .eof from rfl)
      inside (by decide) closed
  rw [program, diagnostics]
  exact ⟨by decide, by decide⟩

end MonkeyLang
