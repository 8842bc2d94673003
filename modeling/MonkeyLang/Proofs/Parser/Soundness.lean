import MonkeyLang.Proofs.Grammar.WellFormed
import MonkeyLang.Proofs.Parser.Constructs
import MonkeyLang.Proofs.Parser.Tiers

/-!
# The parser reads what the grammar derives

What a parser reads without a mistake is derived by the grammar from exactly the tokens that it has
taken. The proof goes up through the constructs: each is sound if the reader of expressions in it
is, as long as the tokens are fewer than the depth of that reader.

* `expression_sound`: the induction on the depth.
* `reads_program_sound`: a program is derived from all tokens of the text.
-/

namespace MonkeyLang

namespace Parser

open Grammar

variable {final : Token} {depth : Nat}

/-- What the parser reads from fewer than `depth` tokens is derived from the tokens it takes. -/
def Sound {α : Type} (final : Token) (depth : Nat) (c : Parse α) (phrase : α → Phrase) : Prop :=
  ∀ ⦃ts a us⦄, ts.length < depth → Reads final c ts a us →
    ∃ vs, ts = vs ++ us ∧ Derives (phrase a) vs

/-- What the reader of expressions reads is derived as an expression that can stand at the level,
and it goes on no further. -/
def SoundAt (final : Token) (depth : Nat) (expr : Level → Parse Node) : Prop :=
  ∀ ⦃level : Level⦄, level.IsPlace → ∀ ⦃ts e us⦄, ts.length < depth →
    Reads final (expr level) ts e us →
      ∃ tier vs, ts = vs ++ us ∧ Derives (.expr tier e) vs ∧ level.holds tier ∧
        level.admits (headKind us) = false

/-- An expression at the loosest level ends where no token continues it. -/
theorem SoundAt.lowest {expr : Level → Parse Node} (h : SoundAt final depth expr)
    ⦃ts us : List Token⦄ ⦃e : Node⦄ (short : ts.length < depth)
    (reads : Reads final (expr .lowest) ts e us) :
    ∃ vs, ts = vs ++ us ∧ Derives (.item .expression e) vs ∧ continues (headKind us) = false := by
  obtain ⟨tier, vs, rfl, derived, -, ends⟩ := h isPlace_lowest short reads
  exact ⟨vs, rfl, .expression derived, (Level.lowest_admits _).symm.trans ends⟩

theorem SoundAt.sound {expr : Level → Parse Node} (h : SoundAt final depth expr) :
    Sound final depth (expr .lowest) (.item .expression) := by
  intro ts e us short reads
  obtain ⟨vs, rfl, derived, -⟩ := h.lowest short reads
  exact ⟨vs, rfl, derived⟩

/-! ## Lists -/

section

variable [IsEnd final]

theorem parameter_sound : Sound final depth parameter (.item .parameter) := by
  intro ts e us _ reads
  obtain ⟨t, ms, ident, rfl, rfl, rfl⟩ := reads_parameter.1 reads
  exact ⟨[t], rfl, .parameter ident⟩

variable {i : Item} {item : Parse Node} [Honest item]

theorem afterCommas_sound (h : Sound final depth item (.item i)) (n : Nat) :
    Sound final depth (afterCommas item n) (.others i) := by
  induction n with
  | zero =>
      intro ts es us _ reads
      obtain ⟨rfl, rfl⟩ := reads_pure.1 reads
      exact ⟨[], rfl, .noOther⟩
  | succ n ih =>
      intro ts es us short reads
      rcases reads_afterCommas.1 reads with
        ⟨t, ms, comma, rfl, e, ns, first, fs, os, then_, rfl, rfl⟩ | ⟨-, rfl, rfl⟩
      · have behind := lt_of_cons short
        obtain ⟨vs, rfl, derived⟩ := h behind first
        obtain ⟨ws, rfl, derived'⟩ := ih (lt_of_append behind) then_
        exact ⟨t :: (vs ++ ws), by simp, .other comma derived derived'⟩
      · exact ⟨[], rfl, .noOther⟩

/-- A list is read with its closing token. -/
theorem listUntil_sound (h : Sound final depth item (.item i)) {close : Token.Kind}
    (inside : close ≠ .eof) ⦃ts us : List Token⦄ ⦃es : List Node⦄ (short : ts.length < depth)
    (reads : Reads final (listUntil item close) ts es us) :
    ∃ vs t, ts = vs ++ t :: us ∧ t.kind = close ∧ Derives (.list i es) vs := by
  rcases (reads_listUntil inside).1 reads with
    ⟨t, ms, closed, rfl, rfl, rfl⟩ | ⟨-, e, ns, first, fs, os, then_, t, ms, closed, rfl, rfl, rfl⟩
  · exact ⟨[], t, rfl, closed, .empty⟩
  · obtain ⟨vs, rfl, derived⟩ := h short first
    obtain ⟨ws, rfl, derived'⟩ := afterCommas_sound h _ (lt_of_append short) then_
    exact ⟨vs ++ ws, t, by simp, closed, .listed derived derived'⟩

end

/-! ## Statements and blocks -/

section

variable [IsEnd final] {expr : Level → Parse Node} [∀ level, Honest (expr level)]

/-- Behind a statement there is no token that would continue it. -/
theorem statement_sound (h : SoundAt final depth expr) ⦃ts us : List Token⦄ ⦃s : Node⦄
    (short : ts.length < depth) (reads : Reads final (statement expr) ts s us) :
    ∃ vs ms, ts = vs ++ ms ∧ Derives (.stmt s) vs ∧ continues (headKind ms) = false ∧
      Ends ms us := by
  rw [reads_statement] at reads
  cases ts with
  | nil =>
      obtain ⟨e, ms, value, -, -⟩ := reads_expressionStatement.1 reads
      obtain ⟨vs, nil, derived, -⟩ := h.lowest short value
      obtain ⟨rfl, -⟩ := List.append_eq_nil_iff.1 nil.symm
      cases derived.starts
  | cons t ts =>
      split at reads
      · next is =>
          obtain ⟨u, _, ident, rfl, v, _, assign, rfl, e, ms, value, ends, rfl⟩ :=
            reads_letStatement.1 reads
          have behind := lt_of_cons (lt_of_cons (lt_of_cons short))
          obtain ⟨vs, rfl, derived, stops⟩ := h.lowest behind value
          exact ⟨t :: u :: v :: vs, ms, rfl, .letStmt is ident assign derived, stops, ends⟩
      · next is =>
          obtain ⟨e, ms, value, ends, rfl⟩ := reads_returnStatement.1 reads
          obtain ⟨vs, rfl, derived, stops⟩ := h.lowest (lt_of_cons short) value
          exact ⟨t :: vs, ms, rfl, .returnStmt is derived, stops, ends⟩
      · obtain ⟨e, ms, value, ends, rfl⟩ := reads_expressionStatement.1 reads
        obtain ⟨vs, split, derived, stops⟩ := h.lowest short value
        cases vs with
        | nil => cases derived.starts
        | cons t' vs =>
            obtain ⟨rfl, rfl⟩ := List.cons_eq_cons.1 split
            exact ⟨t :: vs, ms, rfl, .exprStmt derived, stops, ends⟩

theorem statementsWhile_sound (h : SoundAt final depth expr) {more : Token.Kind → Bool} (n : Nat)
    ⦃ts us : List Token⦄ ⦃ss : List Node⦄ (short : ts.length < depth)
    (reads : Reads final (statementsWhile more (statement expr) n) ts ss us) :
    ∃ vs, ts = vs ++ us ∧ Derives (.stmts ss) vs := by
  induction n generalizing ts ss with
  | zero =>
      obtain ⟨rfl, rfl⟩ := reads_pure.1 reads
      exact ⟨[], rfl, .noStmt⟩
  | succ n ih =>
      cases go : more (headKind ts) with
      | false =>
          obtain ⟨rfl, rfl⟩ := (reads_statementsWhile_done go).1 reads
          exact ⟨[], rfl, .noStmt⟩
      | true =>
          obtain ⟨s, ms, first, ss, ns, then_, rfl, rfl⟩ := (reads_statementsWhile go).1 reads
          obtain ⟨vs, os, rfl, derived, stops, ends⟩ := statement_sound h short first
          rcases ends with ⟨t, semicolon, rfl⟩ | ⟨other, rfl⟩
          · obtain ⟨ws, rfl, derived'⟩ := ih (lt_of_cons (lt_of_append short)) then_
            exact ⟨vs ++ t :: ws, by simp, .closed derived semicolon derived'⟩
          · obtain ⟨ws, rfl, derived'⟩ := ih (lt_of_append short) then_
            refine ⟨vs ++ ws, by simp, .unclosed derived ?_ ?_ derived'⟩
            · cases ws with
              | nil => rfl
              | cons w ws => exact stops
            · cases ws with
              | nil => exact nofun
              | cons w ws => exact other

/-- The end of the statements is reached before that of the fuel. -/
theorem statementsWhile_stops (h : SoundAt final depth expr) {more : Token.Kind → Bool}
    (last : more .eof = false) (n : Nat) ⦃ts us : List Token⦄ ⦃ss : List Node⦄
    (enough : ts.length ≤ n) (short : ts.length < depth)
    (reads : Reads final (statementsWhile more (statement expr) n) ts ss us) :
    more (headKind us) = false := by
  induction n generalizing ts ss with
  | zero =>
      obtain ⟨rfl, rfl⟩ := reads_pure.1 reads
      obtain rfl := List.length_eq_zero_iff.1 (Nat.le_zero.1 enough)
      exact last
  | succ n ih =>
      cases go : more (headKind ts) with
      | false =>
          obtain ⟨rfl, rfl⟩ := (reads_statementsWhile_done go).1 reads
          exact go
      | true =>
          obtain ⟨s, ms, first, ss, ns, then_, rfl, rfl⟩ := (reads_statementsWhile go).1 reads
          obtain ⟨vs, os, rfl, derived, -, ends⟩ := statement_sound h short first
          -- Without a semicolon it is the statement itself that pays for the fuel.
          have taken : 0 < vs.length := List.length_pos_iff.2 derived.stmt_ne_nil
          rcases ends with ⟨t, -, rfl⟩ | ⟨-, rfl⟩
          · have fewer := Nat.le_of_succ_le_succ (le_of_append enough)
            exact ih fewer (lt_of_cons (lt_of_append short)) then_
          · have fewer : ms.length ≤ n := by
              rw [List.length_append] at enough
              omega
            exact ih fewer (lt_of_append short) then_

theorem block_sound (h : SoundAt final depth expr) : Sound final depth (block expr) .block := by
  intro ts b us short reads
  obtain ⟨t, ms, opened, rfl, ss, ns, reads, u, os, ⟨closed, rfl⟩, rfl, rfl⟩ :=
    reads_block.1 reads
  obtain ⟨vs, rfl, derived⟩ := statementsWhile_sound h _ (lt_of_cons short) reads
  exact ⟨t :: (vs ++ [u]), by simp, .block opened derived closed⟩

end

/-! ## Operands -/

/-- The token `t` and what stands between `ts` and `us` are an operand, which no operator before it
is part of unless it is the first token, and which nothing behind it continues. -/
def OperandFound (t : Token) (ts : List Token) (e : Node) (us : List Token) : Prop :=
  ∃ tier vs, ts = vs ++ us ∧ Derives (.expr tier e) (t :: vs) ∧
    Tier.unary.rank ≤ tier.rank ∧ tier.level.admits (headKind us) = false

theorem OperandFound.primary {t : Token} {ts vs us : List Token} {e : Node}
    (split : ts = vs ++ us) (h : Derives (.expr .primary e) (t :: vs)) : OperandFound t ts e us :=
  ⟨.primary, vs, split, h, by decide, primary_admits _⟩

theorem unary_sound {expr : Level → Parse Node} (h : SoundAt final depth expr) {t : Token}
    (is : t.kind = .bang ∨ t.kind = .minus) ⦃ts us : List Token⦄ ⦃e : Node⦄
    (short : ts.length < depth) (reads : Reads final (unary expr t) ts e us) :
    OperandFound t ts e us := by
  obtain ⟨o, _, operand, rfl, rfl⟩ := reads_unary.1 reads
  have place : Level.unary.IsPlace := by decide
  obtain ⟨tier, vs, rfl, derived, tight, ends⟩ := h place short operand
  refine ⟨.unary, vs, rfl, .unary is derived ?_, by decide, ends⟩
  rcases tight with rfl | tighter
  · exact Nat.le_refl _
  · exact Nat.le_of_lt (rank_level_lt.1 tighter)

section

variable [IsEnd final] {expr : Level → Parse Node} [∀ level, Honest (expr level)]

theorem function_sound (h : SoundAt final depth expr) {make : List Node → Node → Node}
    ⦃ts us : List Token⦄ ⦃e : Node⦄ (short : ts.length < depth)
    (reads : Reads final (do
      let (parameters, body) ← parametersAndBody expr
      return make parameters body) ts e us) :
    ∃ ps b vs, ts = vs ++ us ∧ e = make ps b ∧ Derives (.function ps b) vs := by
  obtain ⟨t, ms, opened, rfl, ps, ns, list, b, os, body, rfl, rfl⟩ :=
    reads_parametersAndBody.1 reads
  have item : Sound final depth parameter (.item .parameter) := parameter_sound
  have inside := lt_of_cons short
  obtain ⟨vs, u, rfl, closed, derived⟩ := listUntil_sound item (by nofun) inside list
  have behind := lt_of_cons (lt_of_append inside)
  obtain ⟨ws, rfl, derived'⟩ := block_sound h behind body
  exact ⟨ps, b, t :: (vs ++ u :: ws), by simp, rfl, .function opened derived closed derived'⟩

/-- The pairs of a hash are read with its closing brace. -/
theorem pairs_sound (h : SoundAt final depth expr) (n : Nat) ⦃ts us : List Token⦄
    ⦃ps : List (Node × Node)⦄ (enough : ts.length < n) (short : ts.length < depth)
    (reads : Reads final (pairs expr n) ts ps us) :
    ∃ vs u, ts = vs ++ u :: us ∧ u.kind = .rbrace ∧ Derives (.pairs ps) vs := by
  induction n generalizing ts ps with
  | zero => exact absurd enough (Nat.not_lt_zero _)
  | succ n ih =>
      rcases reads_pairs.1 reads with ⟨t, ms, closed, rfl, rfl, rfl⟩ |
        ⟨-, k, ms, key, t, ns, colon, rfl, v, os, value, rest⟩
      · exact ⟨[], t, rfl, closed, .noPair⟩
      obtain ⟨vs, rfl, derived⟩ := h.sound short key
      have behind := lt_of_cons (lt_of_append short)
      have fewer := lt_of_append enough
      obtain ⟨ws, rfl, derived'⟩ := h.sound behind value
      rcases rest with ⟨-, u, rs, comma, rfl, qs, xs, rest, rfl, rfl⟩ |
        ⟨closed, qs, xs, rest, rfl, rfl⟩
      · have fewer' := lt_of_append (Nat.lt_of_succ_lt_succ fewer)
        obtain ⟨ys, x, rfl, closed, derived''⟩ :=
          ih (lt_of_cons fewer') (lt_of_cons (lt_of_append behind)) rest
        exact ⟨vs ++ t :: (ws ++ u :: ys), x, by simp, closed,
          .pair derived colon derived' comma derived''⟩
      -- The closing brace is read in the place of a next pair, with one more step of fuel.
      · cases n with
        | zero => exact absurd (Nat.lt_of_succ_lt_succ fewer) (Nat.not_lt_zero _)
        | succ n =>
            rcases reads_pairs.1 rest with ⟨x, _, closed, rfl, rfl, rfl⟩ | ⟨other, -⟩
            · exact ⟨vs ++ t :: ws, x, by simp, closed, .lastPair derived colon derived'⟩
            · exact absurd closed other

theorem operand_sound (h : SoundAt final depth expr) {t : Token} {c : Parse Node}
    (found : operand? expr t = some c) ⦃ts us : List Token⦄ ⦃e : Node⦄
    (short : ts.length < depth) (reads : Reads final c ts e us) : OperandFound t ts e us := by
  unfold operand? at found
  split at found <;> cases found
  case h_1 is =>
    obtain ⟨rfl, rfl⟩ := reads_pure.1 reads
    exact .primary rfl (.ident is)
  case h_2 is =>
    obtain ⟨digits, rfl, rfl⟩ := reads_integer.1 reads
    exact .primary rfl (.int is digits)
  case h_3 is =>
    obtain ⟨rfl, rfl⟩ := reads_pure.1 reads
    exact .primary rfl (.str is)
  case h_4 is =>
    obtain ⟨rfl, rfl⟩ := reads_pure.1 reads
    exact .primary rfl (.kwTrue is)
  case h_5 is =>
    obtain ⟨rfl, rfl⟩ := reads_pure.1 reads
    exact .primary rfl (.kwFalse is)
  case h_6 is => exact unary_sound h (.inl is) short reads
  case h_7 is => exact unary_sound h (.inr is) short reads
  case h_8 is =>
    obtain ⟨i, ms, inner, u, ns, closed, rfl, rfl, rfl⟩ := reads_grouped.1 reads
    obtain ⟨vs, rfl, derived⟩ := h.sound short inner
    exact .primary (by simp) (.group is derived closed)
  case h_9 is =>
    obtain ⟨u, ms, opened, rfl, c, ns, condition, v, os, closed, rfl, b, ps, body, rest⟩ :=
      reads_conditional.1 reads
    have inside := lt_of_cons short
    obtain ⟨vs, rfl, derived⟩ := h.sound inside condition
    have behind := lt_of_cons (lt_of_append inside)
    obtain ⟨ws, rfl, derived'⟩ := block_sound h behind body
    rcases rest with ⟨w, qs, else_, rfl, a, rs, alternative, rfl, rfl⟩ | ⟨-, rfl, rfl⟩
    · have last := lt_of_cons (lt_of_append behind)
      obtain ⟨xs, rfl, derived''⟩ := block_sound h last alternative
      exact .primary (by simp) (.ifElse is opened derived closed derived' else_ derived'')
    · exact .primary (by simp) (.ifThen is opened derived closed derived')
  case h_10 is =>
    obtain ⟨ps, b, vs, rfl, rfl, derived⟩ := function_sound h short reads
    exact .primary rfl (.fnLit is derived)
  case h_11 is =>
    obtain ⟨ps, b, vs, rfl, rfl, derived⟩ := function_sound h short reads
    exact .primary rfl (.macroLit is derived)
  case h_12 is =>
    obtain ⟨es, _, list, first⟩ := reads_bind.1 reads
    obtain ⟨rfl, rfl⟩ := reads_pure.1 first
    obtain ⟨vs, u, rfl, closed, derived⟩ := listUntil_sound h.sound (by nofun) short list
    exact .primary (by simp) (.array is derived closed)
  case h_13 is =>
    obtain ⟨ps, _, list, first⟩ := reads_bind.1 (reads_bind_ahead.1 reads)
    obtain ⟨rfl, rfl⟩ := reads_pure.1 first
    obtain ⟨vs, u, rfl, closed, derived⟩ := pairs_sound h _ (Nat.lt_succ_self _) short list
    exact .primary (by simp) (.hash is derived closed)

/-! ## Operators -/

/-- An operator and what follows it extend the operand before it, of which it is no part. -/
theorem extend_sound (h : SoundAt final depth expr) {level : Level} (place : level.IsPlace)
    {t : Token} (admitted : level.admits t.kind) {tier : Tier} {left : Node} {vs : List Token}
    (derived : Derives (.expr tier left) vs) (stops : tier.level.admits t.kind = false)
    ⦃ts us : List Token⦄ ⦃e : Node⦄ (short : ts.length < depth)
    (reads : Reads final (extend expr t left) ts e us) :
    ∃ tier ws, ts = ws ++ us ∧ Derives (.expr tier e) (vs ++ t :: ws) ∧ level.holds tier ∧
      tier.level.admits (headKind us) = false := by
  unfold extend at reads
  rcases Level.admits_cases admitted with is | is | ⟨tier', is, looser⟩
  · rw [is] at reads stops
    obtain ⟨es, _, list, then_⟩ := reads_bind.1 reads
    obtain ⟨rfl, rfl⟩ := reads_pure.1 then_
    obtain ⟨ws, u, rfl, closed, derived'⟩ := listUntil_sound h.sound (by nofun) short list
    obtain rfl := eq_primary (.inl stops)
    exact ⟨.primary, ws ++ [u], by simp, .call derived is derived' closed, place.holds (by decide),
      primary_admits _⟩
  · rw [is] at reads stops
    obtain ⟨i, _, position, then_⟩ := reads_bind.1 reads
    obtain ⟨u, ms, closed, rfl, last⟩ := (reads_bind_expect .rbracket nofun).1 then_
    obtain ⟨rfl, rfl⟩ := reads_pure.1 last
    obtain ⟨ws, rfl, derived'⟩ := h.sound short position
    obtain rfl := eq_primary (.inr stops)
    exact ⟨.primary, ws ++ [u], by simp, .index derived is derived' closed, place.holds (by decide),
      primary_admits _⟩
  · split at reads
    · next is' => rw [is'] at is; cases is
    · next is' => rw [is'] at is; cases is
    · obtain ⟨r, _, right, then_⟩ := reads_bind.1 reads
      obtain ⟨rfl, rfl⟩ := reads_pure.1 then_
      rw [ofKind_eq_level is] at right
      obtain ⟨tier'', ws, rfl, derived', tighter, ends⟩ :=
        h (ofKind_eq_level is ▸ isPlace_ofKind is) short right
      refine ⟨tier', ws, rfl, .binary is derived ?_ derived' ?_, .inr looser, ends⟩
      · rw [Level.not_admits, ofKind_eq_level is] at stops
        exact rank_level_le.1 stops
      · rcases tighter with rfl | tighter
        · exact rank_lt_unary is
        · exact rank_level_lt.1 tighter

/-- What is read behind an operand extends it. -/
theorem climb_sound (h : SoundAt final depth expr) {level : Level} (place : level.IsPlace) (n : Nat)
    {tier : Tier} {left : Node} {vs : List Token} (derived : Derives (.expr tier left) vs)
    (held : level.holds tier) ⦃ts us : List Token⦄ ⦃e : Node⦄ (enough : ts.length ≤ n)
    (short : ts.length < depth) (stops : tier.level.admits (headKind ts) = false)
    (reads : Reads final (climb expr level n left) ts e us) :
    ∃ tier ws, ts = ws ++ us ∧ Derives (.expr tier e) (vs ++ ws) ∧ level.holds tier ∧
      level.admits (headKind us) = false := by
  -- What has been read so far is the left operand of what comes next: its tier varies, but what
  -- follows never belongs into it (`stops`).
  induction n generalizing tier left vs ts with
  | zero =>
      obtain ⟨rfl, rfl⟩ := reads_pure.1 reads
      obtain rfl := List.length_eq_zero_iff.1 (Nat.le_zero.1 enough)
      exact ⟨tier, [], rfl, by simpa using derived, held, rfl⟩
  | succ n ih =>
      cases admitted : level.admits (headKind ts) with
      | false =>
          obtain ⟨rfl, rfl⟩ := (reads_climb_done admitted).1 reads
          exact ⟨tier, [], rfl, by simpa using derived, held, admitted⟩
      | true =>
          cases ts with
          | nil => cases admitted
          | cons t ts =>
              obtain ⟨l, ms, extended, then_⟩ := (reads_climb admitted).1 reads
              have behind := lt_of_cons short
              obtain ⟨tier', ws, rfl, derived', held', stops'⟩ :=
                extend_sound h place admitted derived stops behind extended
              have fewer := le_of_append (Nat.le_of_succ_le_succ enough)
              obtain ⟨tier'', xs, rfl, derived'', held'', ends⟩ :=
                ih derived' held' fewer (lt_of_append behind) stops' then_
              exact ⟨tier'', t :: (ws ++ xs), by simp, by simpa using derived'', held'', ends⟩

end

theorem expression_sound [IsEnd final] (depth : Nat) :
    SoundAt final depth (expression depth) := by
  induction depth with
  | zero => exact fun _ _ _ _ _ short _ => absurd short (Nat.not_lt_zero _)
  | succ depth ih =>
      intro level place ts e us short reads
      obtain ⟨t, ms, c, rfl, found, left, ns, operand, rest⟩ := reads_expression.1 reads
      have behind : ms.length < depth := Nat.lt_of_succ_lt_succ short
      obtain ⟨tier, vs, rfl, derived, tight, stops⟩ := operand_sound ih found behind operand
      obtain ⟨tier', ws, rfl, derived', held', ends⟩ :=
        climb_sound ih place _ derived (place.holds tight) (Nat.le_refl _) (lt_of_append behind)
          stops rest
      exact ⟨tier', t :: (vs ++ ws), by simp, derived', held', ends⟩

/-! ## Programs -/

/-- A program is read up to the end of the text. -/
theorem reads_program_sound [IsEnd final] {ts us : List Token} {p : Node}
    (inside : ∀ t ∈ ts, t.kind ≠ .eof) (reads : Reads final program ts p us) :
    us = [] ∧ Derives (.program p) ts := by
  obtain ⟨ss, ms, statements, rfl, rfl⟩ := reads_program.1 reads
  obtain ⟨vs, rfl, derived⟩ :=
    statementsWhile_sound (expression_sound _) _ (Nat.lt_succ_self _) statements
  have ended := statementsWhile_stops (expression_sound _) rfl _ (Nat.le_refl _)
    (Nat.lt_succ_self _) statements
  cases us with
  | nil => exact ⟨rfl, by simpa using Derives.program derived⟩
  | cons u us => exact absurd (by simpa using ended) (inside u (by simp))

theorem derives_of_accepted {tokens : TokenStream} (ends : tokens.final.kind = .eof)
    (inside : ∀ t ∈ tokens.unread, t.kind ≠ .eof) (accepted : (parseTokens tokens).errors = []) :
    Derives (.program (parseTokens tokens).program) tokens.unread := by
  have : IsEnd tokens.final := ⟨ends⟩
  have unreported : (parseTokens tokens).diagnostics = [] := List.map_eq_nil_iff.1 accepted
  have read : parseTokens ⟨tokens.unread, tokens.final⟩ = ⟨(parseTokens tokens).program, []⟩ := by
    rw [← unreported]
  obtain ⟨us, reads⟩ := parseTokens_eq_iff.1 read
  exact (reads_program_sound inside reads).2

end Parser

open Grammar

/-- Where no mistake is reported, the tokens before the end marker are a program by the grammar, and
the tree that is returned is that program: nothing in it is missing that must be there. -/
theorem parseTokens_sound {tokens : TokenStream} (ends : tokens.final.kind = .eof)
    (lexical : ∀ t ∈ tokens.unread, t.Lexical) (accepted : (parseTokens tokens).errors = []) :
    (parseTokens tokens).program.fits .program ∧
      Derives (.program (parseTokens tokens).program) tokens.unread := by
  have derived := Parser.derives_of_accepted ends (fun t ht => (lexical t ht).inside) accepted
  exact ⟨derived.wellFormed lexical, derived⟩

/-- The tokens of `-a * b`. -/
theorem parseTokens_sound_product :
    let tokens : TokenStream := ⟨[⟨.minus, "-", ⟨1, 1⟩⟩, ⟨.ident, "a", ⟨1, 2⟩⟩,
      ⟨.asterisk, "*", ⟨1, 4⟩⟩, ⟨.ident, "b", ⟨1, 6⟩⟩], ⟨.eof, "", ⟨1, 7⟩⟩⟩
    (parseTokens tokens).program.fits .program ∧
      Derives (.program (parseTokens tokens).program) tokens.unread := by
  refine parseTokens_sound rfl ?_ (by decide)
  simp only [List.forall_mem_cons, List.not_mem_nil, false_implies, implies_true, and_true]
  exact ⟨.of_spelling rfl, .of_free nofun rfl nofun, .of_spelling rfl, .of_free nofun rfl nofun⟩

/-- Whatever the text, its tokens are such as the grammar wants them. -/
theorem derives_of_parse {source : Text} (accepted : (parse source).errors = []) :
    (parse source).program.fits .program ∧
      Derives (.program (parse source).program) (TokenStream.ofSource source).unread := by
  have lexical := TokenStream.lexical_ofSource source
  have derived := Parser.derives_of_accepted (TokenStream.final_ofSource source)
    (fun t ht => (lexical t ht).inside) accepted
  exact ⟨derived.wellFormed lexical, derived⟩

end MonkeyLang
