import MonkeyLang.Proofs.Parser.Reads

/-!
# Readings of the constructs

One equivalence for each construct: what its readings are, in terms of the tokens at its head and
of the readings of its parts.
-/

namespace MonkeyLang

namespace Parser

open Grammar

variable {final : Token} {ts us : List Token} {expr : Level → Parse Node}

/-! ## Operands and parts without lists -/

theorem reads_integer {t : Token} {e : Node} :
    Reads final (integer t) ts e us ↔
      t.literal.length ≤ Decimal.longest ∧
        e = .int t (Decimal.value t.literal.chars) ∧ us = ts := by
  unfold integer
  split
  · next overlong => simp only [not_reads_report, Nat.not_le.2 overlong, false_and]
  · next short => simp only [reads_pure, Nat.not_lt.1 short, true_and]

theorem reads_unary {t : Token} {e : Node} :
    Reads final (unary expr t) ts e us ↔
      ∃ o ms, Reads final (expr .unary) ts o ms ∧ e = .unary t t.literal o ∧ us = ms := by
  simp only [unary, reads_bind, reads_pure]

section

variable [IsEnd final]

theorem reads_grouped {e : Node} :
    Reads final (grouped expr) ts e us ↔
      ∃ i ms, Reads final (expr .lowest) ts i ms ∧
        ∃ u ns, u.kind = .rparen ∧ ms = u :: ns ∧ e = i ∧ us = ns := by
  simp only [grouped, reads_bind (c := expr .lowest), reads_bind_expect .rparen nofun, reads_pure]

theorem reads_parameter {e : Node} :
    Reads final parameter ts e us ↔
      ∃ t ms, t.kind = .ident ∧ ts = t :: ms ∧ e = .ident t t.literal ∧ us = ms := by
  simp only [parameter, reads_bind_expect .ident nofun, reads_pure]

end

/-! ## Lists -/

section

variable [IsEnd final] {α : Type} {item : Parse α} [Honest item] {es : List α}

theorem reads_afterCommas {n : Nat} :
    Reads final (afterCommas item (n + 1)) ts es us ↔
      (∃ t ms, t.kind = .comma ∧ ts = t :: ms ∧
        ∃ e ns, Reads final item ms e ns ∧
          ∃ fs os, Reads final (afterCommas item n) ns fs os ∧ es = e :: fs ∧ us = os) ∨
      (headKind ts ≠ .comma ∧ es = [] ∧ us = ts) := by
  simp only [afterCommas, reads_bind_accept .comma (by decide), ↓reduceIte, Bool.false_eq_true,
    reads_bind, reads_pure]

theorem reads_listUntil {close : Token.Kind} (inside : close ≠ .eof) :
    Reads final (listUntil item close) ts es us ↔
      (∃ t ms, t.kind = close ∧ ts = t :: ms ∧ es = [] ∧ us = ms) ∨
      (headKind ts ≠ close ∧
        ∃ e ns, Reads final item ts e ns ∧
          ∃ fs os, Reads final (afterCommas item ns.length) ns fs os ∧
            ∃ t ms, t.kind = close ∧ os = t :: ms ∧ es = e :: fs ∧ us = ms) := by
  simp only [listUntil, separated, reads_bind_accept close inside, ↓reduceIte,
    Bool.false_eq_true, bind_assoc, pure_bind, reads_bind (c := item), reads_bind_ahead,
    reads_bind (c := afterCommas _ _), reads_bind_expect close inside, reads_pure]

end

section

variable [IsEnd final] {more : Token.Kind → Bool} {stmt : Parse Node} {ss : List Node} {n : Nat}

theorem reads_statementsWhile_done (h : more (headKind ts) = false) :
    Reads final (statementsWhile more stmt n) ts ss us ↔ ss = [] ∧ us = ts := by
  cases n with
  | zero => exact reads_pure
  | succ n =>
      simp only [statementsWhile, reads_bind_peek, peek_kind, h]
      exact reads_pure

theorem reads_statementsWhile [Honest stmt] (h : more (headKind ts)) :
    Reads final (statementsWhile more stmt (n + 1)) ts ss us ↔
      ∃ s ms, Reads final stmt ts s ms ∧
        ∃ ss' ns, Reads final (statementsWhile more stmt n) ms ss' ns ∧
          ss = s :: ss' ∧ us = ns := by
  simp only [statementsWhile, reads_bind_peek, peek_kind, h, ↓reduceIte]
  simp only [reads_bind_optional, reads_bind (c := statementsWhile _ _ _), reads_pure]
  rfl

end

/-! ## Statements and blocks -/

/-- The semicolon at the head of `ts` is read if there is one. -/
def Ends (ts us : List Token) : Prop :=
  (∃ t, t.kind = .semicolon ∧ ts = t :: us) ∨ (headKind ts ≠ .semicolon ∧ us = ts)

section

variable [IsEnd final]

theorem reads_semicolon {α : Type} {a b : α} :
    Reads final (do let _ ← accept .semicolon; return a) ts b us ↔ Ends ts us ∧ b = a := by
  rw [reads_bind_accept .semicolon nofun]
  simp only [reads_pure, Ends]
  constructor
  · intro either
    rcases either with ⟨t, ms, is, rfl, rfl, rfl⟩ | ⟨other, rfl, rfl⟩
    · exact ⟨.inl ⟨t, is, rfl⟩, rfl⟩
    · exact ⟨.inr ⟨other, rfl⟩, rfl⟩
  · intro parts
    rcases parts with ⟨⟨t, is, rfl⟩ | ⟨other, rfl⟩, rfl⟩
    · exact .inl ⟨t, us, is, rfl, rfl, rfl⟩
    · exact .inr ⟨other, rfl, rfl⟩

theorem reads_returnStatement {t : Token} {s : Node} :
    Reads final (returnStatement expr) (t :: ts) s us ↔
      ∃ e ms, Reads final (expr .lowest) ts e ms ∧ Ends ms us ∧ s = .returnStmt t e := by
  simp only [returnStatement, reads_bind_advance, reads_bind (c := expr .lowest),
    reads_semicolon]
  rfl

theorem reads_expressionStatement {s : Node} :
    Reads final (expressionStatement expr) ts s us ↔
      ∃ e ms, Reads final (expr .lowest) ts e ms ∧ Ends ms us ∧
        s = .exprStmt (some (TokenStream.peek ⟨ts, final⟩)) e := by
  simp only [expressionStatement, reads_bind_peek, reads_bind (c := expr .lowest),
    reads_semicolon]

/-- The first token tells which statement it is. -/
theorem reads_statement {s : Node} :
    Reads final (statement expr) ts s us ↔
      match headKind ts with
      | .kwLet => Reads final (letStatement expr) ts s us
      | .kwReturn => Reads final (returnStatement expr) ts s us
      | _ => Reads final (expressionStatement expr) ts s us := by
  unfold statement
  rw [reads_bind_peek, peek_kind]
  cases headKind ts <;> rfl

variable [∀ level, Honest (expr level)]

theorem reads_letStatement {t : Token} {s : Node} :
    Reads final (letStatement expr) (t :: ts) s us ↔
      ∃ u ms, u.kind = .ident ∧ ts = u :: ms ∧
        ∃ v ns, v.kind = .assign ∧ ms = v :: ns ∧
          ∃ e os, Reads final (expr .lowest) ns e os ∧
            Ends os us ∧ s = .letStmt t ⟨u, u.literal⟩ e := by
  simp only [letStatement, reads_bind_advance, reads_bind_expect .ident nofun,
    reads_bind_expect .assign nofun, reads_bind (c := expr .lowest), reads_semicolon]
  rfl

theorem reads_block {b : Node} :
    Reads final (block expr) ts b us ↔
      ∃ t ms, t.kind = .lbrace ∧ ts = t :: ms ∧
        ∃ ss ns, Reads final (statementsWhile (fun k => k != .rbrace && k != .eof)
            (statement expr) ms.length) ms ss ns ∧
          ∃ u os, (u.kind = .rbrace ∧ ns = u :: os) ∧ b = .block t ss ∧ us = os := by
  simp only [block, reads_bind_expect .lbrace nofun, reads_bind_ahead,
    reads_bind (c := statementsWhile _ _ _), reads_bind_optional, reads_expect .rbrace nofun,
    reads_pure]

end

/-! ## Operands with parts -/

section

variable [IsEnd final] [∀ level, Honest (expr level)]

theorem reads_conditional {t : Token} {e : Node} :
    Reads final (conditional expr t) ts e us ↔
      ∃ u ms, u.kind = .lparen ∧ ts = u :: ms ∧ ∃ c ns, Reads final (expr .lowest) ms c ns ∧
        ∃ v os, v.kind = .rparen ∧ ns = v :: os ∧ ∃ b ps, Reads final (block expr) os b ps ∧
          ((∃ w qs, w.kind = .kwElse ∧ ps = w :: qs ∧
              ∃ a rs, Reads final (block expr) qs a rs ∧ e = .ifElse t c b a ∧ us = rs) ∨
            (headKind ps ≠ .kwElse ∧ e = .ifElse t c b .missing ∧ us = ps)) := by
  simp only [conditional, reads_bind_expect .lparen nofun, reads_bind (c := expr .lowest),
    reads_bind_expect .rparen nofun, reads_bind (c := block expr),
    reads_bind_accept .kwElse nofun, ↓reduceIte, Bool.false_eq_true, reads_pure]

theorem reads_parametersAndBody {make : List Node → Node → Node} {e : Node} :
    Reads final (do
        let (parameters, body) ← parametersAndBody expr
        return make parameters body) ts e us ↔
      ∃ t ms, t.kind = .lparen ∧ ts = t :: ms ∧
        ∃ ps ns, Reads final (listUntil parameter .rparen) ms ps ns ∧
          ∃ b os, Reads final (block expr) ns b os ∧ e = make ps b ∧ us = os := by
  change Reads final (parametersAndBody expr >>= fun x => pure (make x.1 x.2)) ts e us ↔ _
  simp only [parametersAndBody, bind_assoc, pure_bind, reads_bind_expect .lparen nofun,
    reads_bind, reads_pure]

/-- Between two pairs stands a comma, which may also stand behind the last one. -/
theorem reads_pairs {n : Nat} {ps : List (Node × Node)} :
    Reads final (pairs expr (n + 1)) ts ps us ↔
      (∃ t ms, t.kind = .rbrace ∧ ts = t :: ms ∧ ps = [] ∧ us = ms) ∨
      (headKind ts ≠ .rbrace ∧ ∃ k ms, Reads final (expr .lowest) ts k ms ∧
        ∃ t ns, t.kind = .colon ∧ ms = t :: ns ∧ ∃ v os, Reads final (expr .lowest) ns v os ∧
          ((headKind os ≠ .rbrace ∧ ∃ u rs, u.kind = .comma ∧ os = u :: rs ∧
              ∃ qs vs, Reads final (pairs expr n) rs qs vs ∧ ps = (k, v) :: qs ∧ us = vs) ∨
            (headKind os = .rbrace ∧
              ∃ qs vs, Reads final (pairs expr n) os qs vs ∧ ps = (k, v) :: qs ∧ us = vs))) := by
  simp only [pairs, reads_bind_accept .rbrace nofun, ↓reduceIte, Bool.false_eq_true,
    reads_bind (c := expr .lowest), reads_bind_expect .colon nofun, reads_bind_nextIs .rbrace,
    reads_pure]
  simp only [reads_ite, Bool.not_eq_eq_eq_not, Bool.not_true, beq_eq_false_iff_ne, ne_eq,
    Decidable.not_not, reads_bind_expect .comma nofun, reads_bind (c := pairs _ _), reads_pure]

end

/-! ## Operators -/

section

variable [IsEnd final] {level : Level} {n : Nat} {left e : Node}

theorem reads_climb_done (h : level.admits (headKind ts) = false) :
    Reads final (climb expr level n left) ts e us ↔ e = left ∧ us = ts := by
  cases n with
  | zero => exact reads_pure
  | succ n =>
      simp only [climb, reads_bind_peek, peek_kind, h]
      exact reads_pure

theorem reads_climb [∀ level, Honest (expr level)] {t : Token} (h : level.admits t.kind) :
    Reads final (climb expr level (n + 1) left) (t :: ts) e us ↔
      ∃ l ms, Reads final (extend expr t left) ts l ms ∧
        Reads final (climb expr level n l) ms e us := by
  simp only [climb, reads_bind_peek, peek_kind, headKind_cons, h, ↓reduceIte]
  simp only [reads_bind_advance, reads_bind (c := orMissing _), reads_orMissing]
  rfl

end

theorem reads_expression [IsEnd final] {depth : Nat} {level : Level} {e : Node} :
    Reads final (expression (depth + 1) level) ts e us ↔
      ∃ t ms c, ts = t :: ms ∧ operand? (expression depth) t = some c ∧
        ∃ left ns, Reads final c ms left ns ∧
          Reads final (climb (expression depth) level ns.length left) ns e us := by
  unfold expression
  rw [reads_bind_advance]
  cases ts with
  | nil =>
      have closed : operand? (expression depth) (TokenStream.peek ⟨[], final⟩) = none := by
        simp only [operand?, peek_kind, headKind_nil]
      rw [closed]
      refine iff_of_false not_reads_report ?_
      intro parts
      obtain ⟨_, _, _, ⟨⟩, _⟩ := parts
  | cons t ts =>
      simp only [TokenStream.peek, List.headD_cons, List.tail_cons]
      cases found : operand? (expression depth) t with
      | none =>
          refine iff_of_false not_reads_report ?_
          intro parts
          obtain ⟨_, _, c, ⟨⟩, found', _⟩ := parts
          cases found.symm.trans found'
      | some c =>
          have := Honest.operand found
          simp only [reads_bind (c := orMissing c), reads_orMissing, reads_bind_ahead]
          constructor
          · rintro ⟨left, ns, first, then_⟩
            exact ⟨t, ts, c, rfl, found, left, ns, first, then_⟩
          · intro parts
            obtain ⟨_, _, c', ⟨⟩, found', h⟩ := parts
            cases found.symm.trans found'
            exact h

theorem reads_program {p : Node} :
    Reads final program ts p us ↔
      ∃ ss ms, Reads final (statementsWhile (· != .eof)
          (statement (expression (ts.length + 1))) ts.length) ts ss ms ∧
        p = .program ss ∧ us = ms := by
  simp only [program, reads_bind_ahead, reads_bind (c := statementsWhile _ _ _), reads_pure]

/-- A text is in order if it is read without a mistake. -/
theorem parseTokens_eq_iff {p : Node} :
    parseTokens ⟨ts, final⟩ = ⟨p, []⟩ ↔ ∃ us, Reads final program ts p us := by
  change Parsing.mk ((result program ⟨⟨ts, final⟩, []⟩).1.getD .missing)
    (result program ⟨⟨ts, final⟩, []⟩).2.reported.reverse = _ ↔ _
  unfold Reads
  have marker := (Honest.later (c := program) ⟨⟨ts, final⟩, []⟩).marker
  rcases run : result program ⟨⟨ts, final⟩, []⟩ with ⟨_ | q, ⟨us, final'⟩, reported⟩
  · constructor
    · intro h
      have nil : reported = [] := List.reverse_eq_nil_iff.1 (congrArg Parsing.diagnostics h)
      exact absurd (nil ▸ run) Honest.unreported
    · intro parts
      obtain ⟨us, ⟨⟩⟩ := parts
  · rw [run] at marker
    constructor
    · intro h
      have nil : reported = [] := List.reverse_eq_nil_iff.1 (congrArg Parsing.diagnostics h)
      obtain rfl : q = p := congrArg Parsing.program h
      obtain rfl : final' = final := marker
      exact ⟨us, by rw [nil]⟩
    · intro parts
      obtain ⟨us, h⟩ := parts
      cases h
      rfl

end Parser

end MonkeyLang
