import MonkeyLang.Proofs.Grammar.Printing
import MonkeyLang.Proofs.Parser.Constructs
import MonkeyLang.Proofs.Parser.Tiers

/-!
# The parser reads whatever the grammar derives

From tokens that the grammar derives a phrase from, the parser reads that phrase without a mistake
and stops where the phrase ends, provided that nothing that follows would continue it. What this
means for each kind of phrase is `Complete`; the proof is an induction on the derivation, with one
lemma for each rule.

The invariant for expressions speaks about what is done with the expression once it has been read
(`ReadsExpr`): the operand to the left of an operator is not read by a call of its own.
-/

namespace MonkeyLang

namespace Parser

open Grammar

variable {final : Token}

/-! ## Expressions -/

/-- An expression is read, and the climb goes on behind it, at each level where it can stand. -/
def ReadsExpr (final : Token) (tier : Tier) (e : Node) (ts : List Token) : Prop :=
  ∀ ⦃depth : Nat⦄ ⦃level : Level⦄ ⦃rest : List Token⦄ ⦃e' : Node⦄ ⦃us : List Token⦄,
    (ts ++ rest).length ≤ depth → level.IsPlace → level.holds tier →
    tier.level.admits (headKind rest) = false → headKind rest ≠ .kwElse →
    (∀ n, rest.length ≤ n → Reads final (climb (expression depth) level n e) rest e' us) →
    Reads final (expression (depth + 1) level) (ts ++ rest) e' us

/-- Nothing that follows continues an expression or a conditional. -/
def Stops (level : Level) (rest : List Token) : Prop :=
  level.admits (headKind rest) = false ∧ headKind rest ≠ .kwElse

section

variable [IsEnd final] {tier : Tier} {e : Node} {t : Token} {ts us : List Token}

/-- Where nothing continues the expression, it is what is read. -/
theorem ReadsExpr.stop (h : ReadsExpr final tier e ts) {depth : Nat} {level : Level}
    {rest : List Token} (short : (ts ++ rest).length < depth) (place : level.IsPlace)
    (held : level.holds tier) (stops : Stops level rest) :
    Reads final (expression depth level) (ts ++ rest) e rest := by
  cases depth with
  | zero => exact absurd short (Nat.not_lt_zero _)
  | succ depth =>
      refine h (Nat.le_of_lt_succ short) place held ?_ stops.2 fun n _ => ?_
      · exact held.stops place stops.1
      · exact (reads_climb_done stops.1).2 ⟨rfl, rfl⟩

/-- An operand is read by what its first token calls for. -/
theorem ReadsExpr.operand
    (h : ∀ ⦃depth : Nat⦄ ⦃rest : List Token⦄, (ts ++ rest).length < depth →
      Stops tier.level rest →
      ∃ c, operand? (expression depth) t = some c ∧ Reads final c (ts ++ rest) e rest) :
    ReadsExpr final tier e (t :: ts) := by
  intro depth level rest e' us short place held stops noElse climb
  obtain ⟨c, found, reads⟩ := h (Nat.lt_of_succ_le short) ⟨stops, noElse⟩
  exact reads_expression.2
    ⟨t, ts ++ rest, c, rfl, found, e, rest, reads, climb _ (Nat.le_refl _)⟩

/-- An operator is read with what follows it where the operand before it has been read. -/
theorem ReadsExpr.extend {left : Tier} {l : Node} (hl : ReadsExpr final left l ts)
    (loose : left.level.admits t.kind = false) (noElse : t.kind ≠ .kwElse)
    (admitted : ∀ level : Level, level.IsPlace → level.holds tier →
      level.admits t.kind ∧ level.holds left)
    (h : ∀ ⦃depth : Nat⦄ ⦃rest : List Token⦄, (us ++ rest).length < depth →
      Stops tier.level rest →
      Reads final (extend (expression depth) t l) (us ++ rest) e rest) :
    ReadsExpr final tier e (ts ++ t :: us) := by
  intro depth level rest e' us' short place held stops noElse' climb
  obtain ⟨goes, held'⟩ := admitted level place held
  rw [List.append_assoc] at short ⊢
  -- The operand is read by the same call, which then climbs over the operator and on from there.
  refine hl short place held' loose noElse fun n enough => ?_
  cases n with
  | zero => exact absurd enough (Nat.not_succ_le_zero _)
  | succ n =>
      have behind : (us ++ rest).length < depth := le_of_append short
      have fewer : (us ++ rest).length ≤ n := Nat.le_of_succ_le_succ enough
      exact (reads_climb goes).2
        ⟨e, rest, h behind ⟨stops, noElse'⟩, climb n (le_of_append fewer)⟩

end

/-! ## All phrases -/

/-- The reader of an item. -/
def itemReader (expr : Level → Parse Node) : Item → Parse Node
  | .expression => expr .lowest
  | .parameter => parameter

instance {expr : Level → Parse Node} [∀ level, Honest (expr level)] {i : Item} :
    Honest (itemReader expr i) := by
  cases i
  · exact inferInstanceAs (Honest (expr .lowest))
  · exact Honest.parameter

/-- The kinds of the tokens that close a list. -/
def closesList (kind : Token.Kind) : Bool := kind = .rparen || kind = .rbracket

theorem closesList_iff {kind : Token.Kind} :
    closesList kind ↔ kind = .rparen ∨ kind = .rbracket := by
  unfold closesList
  rw [Bool.or_eq_true, decide_eq_true_eq, decide_eq_true_eq]

theorem ne_eof_of_closesList {kind : Token.Kind} (h : closesList kind) : kind ≠ .eof := by
  intro same
  subst same
  cases h

/-- What it means that the phrase is read from the tokens, whatever follows them. The depth bounds
the tokens; a list, a row of pairs and a function are read with what closes them. -/
def Complete (final : Token) : Phrase → List Token → Prop
  | .expr tier e, ts => ReadsExpr final tier e ts
  | .item i e, ts => ∀ ⦃depth rest⦄, (ts ++ rest).length < depth → Stops .lowest rest →
    Reads final (itemReader (expression depth) i) (ts ++ rest) e rest
  | .list i es, ts => ∀ ⦃depth t rest⦄, (ts ++ t :: rest).length < depth → closesList t.kind →
    Reads final (listUntil (itemReader (expression depth) i) t.kind) (ts ++ t :: rest) es rest
  | .others i es, ts => ∀ ⦃depth n t rest⦄, (ts ++ t :: rest).length < depth →
    (ts ++ t :: rest).length ≤ n → closesList t.kind →
    Reads final (afterCommas (itemReader (expression depth) i) n) (ts ++ t :: rest) es (t :: rest)
  | .pairs ps, ts => ∀ ⦃depth n t rest⦄, (ts ++ t :: rest).length < depth →
    (ts ++ t :: rest).length ≤ n → t.kind = .rbrace →
    Reads final (pairs (expression depth) n) (ts ++ t :: rest) ps rest
  | .function ps b, ts => ∀ ⦃depth rest⦄ (make : List Node → Node → Node),
    (ts ++ rest).length < depth →
    Reads final (do
      let (parameters, body) ← parametersAndBody (expression depth)
      return make parameters body) (ts ++ rest) (make ps b) rest
  | .block b, ts => ∀ ⦃depth rest⦄, (ts ++ rest).length < depth →
    Reads final (block (expression depth)) (ts ++ rest) b rest
  | .stmt s, ts => ∀ ⦃depth rest us⦄, (ts ++ rest).length < depth → Stops .lowest rest →
    Ends rest us → Reads final (statement (expression depth)) (ts ++ rest) s us
  | .stmts ss, ts => ∀ ⦃depth n more rest⦄, (ts ++ rest).length < depth →
    (ts ++ rest).length ≤ n → (∀ kind, opensStmt kind → more kind) →
    more (headKind rest) = false → (headKind rest = .rbrace ∨ headKind rest = .eof) →
    Reads final (statementsWhile more (statement (expression depth)) n) (ts ++ rest) ss rest
  | .program p, ts => Reads final program ts p []

namespace Complete

variable [IsEnd final] {e : Node} {t u v w : Token} {ts us vs : List Token}

/-! ### Operands -/

theorem atom {c : Parse Node} (found : ∀ expr : Level → Parse Node, operand? expr t = some c)
    (reads : ∀ rest, Reads final c rest e rest) : Complete final (.expr .primary e) [t] :=
  .operand fun _ rest _ _ => ⟨c, found _, reads rest⟩

theorem ident (is : t.kind = .ident) :
    Complete final (.expr .primary (.ident t t.literal)) [t] :=
  atom (fun _ => by simp only [operand?, is]) fun _ => reads_pure.2 ⟨rfl, rfl⟩

theorem int (is : t.kind = .int) (short : t.literal.length ≤ Decimal.longest) :
    Complete final (.expr .primary (.int t (Decimal.value t.literal.chars))) [t] :=
  atom (fun _ => by simp only [operand?, is]) fun _ => reads_integer.2 ⟨short, rfl, rfl⟩

theorem str (is : t.kind = .string) : Complete final (.expr .primary (.str t t.literal)) [t] :=
  atom (fun _ => by simp only [operand?, is]) fun _ => reads_pure.2 ⟨rfl, rfl⟩

theorem bool {value : Bool} (is : t.kind = if value then .kwTrue else .kwFalse) :
    Complete final (.expr .primary (.bool t value)) [t] := by
  cases value with
  | true => exact atom (fun _ => by simp only [operand?, is]; rfl) fun _ => reads_pure.2 ⟨rfl, rfl⟩
  | false => exact atom (fun _ => by simp only [operand?, is]; rfl) fun _ => reads_pure.2 ⟨rfl, rfl⟩

/-- What closes a list or a group does not continue an expression. -/
theorem stops_of_kind {kind : Token.Kind} (is : t.kind = kind)
    (stops : continues kind = false) (noElse : kind ≠ .kwElse) : Stops .lowest (t :: ts) := by
  refine ⟨?_, ?_⟩
  · rw [Level.lowest_admits, headKind_cons, is, stops]
  · rwa [headKind_cons, is]

theorem group (is : t.kind = .lparen) (inner : Complete final (.item .expression e) ts)
    (closed : u.kind = .rparen) : Complete final (.expr .primary e) (t :: (ts ++ [u])) := by
  refine .operand fun depth rest short _ => ⟨grouped (expression depth), ?_, ?_⟩
  · simp only [operand?, is]
  · rw [List.append_assoc] at short ⊢
    exact reads_grouped.2 ⟨e, u :: rest, inner short (stops_of_kind closed rfl (by decide)), u, rest,
      closed, rfl, rfl, rfl⟩

theorem array {es : List Node} (is : t.kind = .lbracket)
    (list : Complete final (.list .expression es) ts) (closed : u.kind = .rbracket) :
    Complete final (.expr .primary (.array t es)) (t :: (ts ++ [u])) := by
  refine .operand fun depth rest short _ => ⟨_, by simp only [operand?, is]; rfl, ?_⟩
  rw [List.append_assoc] at short ⊢
  have reads := list short (closesList_iff.2 (.inr closed))
  rw [closed] at reads
  exact reads_bind.2 ⟨es, rest, reads, reads_pure.2 ⟨rfl, rfl⟩⟩

theorem hash {ps : List (Node × Node)} (is : t.kind = .lbrace)
    (pairs : Complete final (.pairs ps) ts) (closed : u.kind = .rbrace) :
    Complete final (.expr .primary (.hash t ps)) (t :: (ts ++ [u])) := by
  refine .operand fun depth rest short _ => ⟨_, by simp only [operand?, is]; rfl, ?_⟩
  rw [List.append_assoc] at short ⊢
  exact reads_bind_ahead.2
    (reads_bind.2 ⟨ps, rest, pairs short (Nat.le_succ _) closed, reads_pure.2 ⟨rfl, rfl⟩⟩)

theorem ifThen {c b : Node} (is : t.kind = .kwIf) (opened : u.kind = .lparen)
    (condition : Complete final (.item .expression c) ts) (closed : v.kind = .rparen)
    (body : Complete final (.block b) us) :
    Complete final (.expr .primary (.ifElse t c b .missing)) (t :: u :: (ts ++ v :: us)) := by
  refine .operand fun depth rest short stops => ⟨_, by simp only [operand?, is]; rfl, ?_⟩
  rw [List.cons_append, List.append_assoc] at short ⊢
  have inside := lt_of_cons short
  have behind := lt_of_cons (lt_of_append inside)
  exact reads_conditional.2 ⟨u, _, opened, rfl, c, _,
    condition inside (stops_of_kind closed rfl (by decide)), v, _, closed, rfl, b, rest,
    body behind, .inr ⟨stops.2, rfl, rfl⟩⟩

theorem ifElse {c b a : Node} (is : t.kind = .kwIf) (opened : u.kind = .lparen)
    (condition : Complete final (.item .expression c) ts) (closed : v.kind = .rparen)
    (body : Complete final (.block b) us) (else_ : w.kind = .kwElse)
    (alternative : Complete final (.block a) vs) :
    Complete final (.expr .primary (.ifElse t c b a))
      (t :: u :: (ts ++ v :: (us ++ w :: vs))) := by
  refine .operand fun depth rest short stops => ⟨_, by simp only [operand?, is]; rfl, ?_⟩
  simp only [List.cons_append, List.append_assoc] at short ⊢
  have inside := lt_of_cons short
  have behind := lt_of_cons (lt_of_append inside)
  have last := lt_of_cons (lt_of_append behind)
  exact reads_conditional.2 ⟨u, _, opened, rfl, c, _,
    condition inside (stops_of_kind closed rfl (by decide)), v, _, closed, rfl, b, _,
    body behind, .inl ⟨w, _, else_, rfl, a, rest, alternative last, rfl, rfl⟩⟩

theorem fnLit {ps : List Node} {b : Node} (is : t.kind = .kwFn)
    (function : Complete final (.function ps b) ts) :
    Complete final (.expr .primary (.fnLit t ps b)) (t :: ts) :=
  .operand fun _ _ short _ =>
    ⟨_, by simp only [operand?, is], function (.fnLit t) short⟩

theorem macroLit {ps : List Node} {b : Node} (is : t.kind = .kwMacro)
    (function : Complete final (.function ps b) ts) :
    Complete final (.expr .primary (.macroLit t ps b)) (t :: ts) :=
  .operand fun _ _ short _ =>
    ⟨_, by simp only [operand?, is], function (.macroLit t) short⟩

theorem unary {tier : Tier} (is : t.kind = .bang ∨ t.kind = .minus)
    (operand : Complete final (.expr tier e) ts) (tight : Tier.unary.rank ≤ tier.rank) :
    Complete final (.expr .unary (.unary t t.literal e)) (t :: ts) := by
  refine .operand fun depth rest short stops => ⟨Parser.unary (expression depth) t, ?_, ?_⟩
  · rcases is with is | is <;> simp only [operand?, is]
  · have place : Level.unary.IsPlace := by decide
    exact reads_unary.2 ⟨e, rest, operand.stop short place (place.holds tight) stops, rfl, rfl⟩

/-! ### Operators -/

theorem call {es : List Node} (callee : Complete final (.expr .primary e) ts)
    (is : t.kind = .lparen) (list : Complete final (.list .expression es) us)
    (closed : u.kind = .rparen) :
    Complete final (.expr .primary (.call t e es)) (ts ++ t :: (us ++ [u])) := by
  refine .extend callee (primary_admits _) (by rw [is]; nofun) (fun level place held => ?_)
    fun depth rest short _ => ?_
  · exact ⟨is ▸ place.admits_bracket.1, held⟩
  · unfold extend
    rw [List.append_assoc] at short ⊢
    have reads := list short (closesList_iff.2 (.inl closed))
    rw [closed] at reads
    rw [is]
    exact reads_bind.2 ⟨es, rest, reads, reads_pure.2 ⟨rfl, rfl⟩⟩

theorem index {i : Node} (container : Complete final (.expr .primary e) ts)
    (is : t.kind = .lbracket) (position : Complete final (.item .expression i) us)
    (closed : u.kind = .rbracket) :
    Complete final (.expr .primary (.index t e i)) (ts ++ t :: (us ++ [u])) := by
  refine .extend container (primary_admits _) (by rw [is]; nofun) (fun level place held => ?_)
    fun depth rest short _ => ?_
  · exact ⟨is ▸ place.admits_bracket.2, held⟩
  · unfold extend
    rw [List.append_assoc] at short ⊢
    rw [is]
    exact reads_bind.2 ⟨i, _, position short (stops_of_kind closed rfl (by decide)),
      (reads_bind_expect .rbracket nofun).2 ⟨u, rest, closed, rfl, reads_pure.2 ⟨rfl, rfl⟩⟩⟩

/-- The operand before an operator goes on no further than the operator allows, and the operand
behind it ends where the whole does. -/
theorem binary {tier left right : Tier} {l r : Node} (is : Tier.ofKind? t.kind = some tier)
    (hl : Complete final (.expr left l) ts) (loose : tier.rank ≤ left.rank)
    (hr : Complete final (.expr right r) us) (tight : tier.rank < right.rank) :
    Complete final (.expr tier (.binary t l t.literal r)) (ts ++ t :: us) := by
  have level_eq := ofKind_eq_level is
  refine .extend hl ?_ ?_ (fun level place held => ?_) fun depth rest short stops => ?_
  · rw [Level.not_admits, level_eq]
    exact rank_level_le.2 loose
  · intro else_
    rw [else_] at is
    cases is
  · have looser : level.rank < tier.level.rank :=
      held.resolve_left fun eq => absurd (rank_lt_unary is) (eq ▸ Nat.lt_irrefl _)
    refine ⟨?_, .inr (Nat.lt_of_lt_of_le looser (rank_level_le.2 loose))⟩
    exact decide_eq_true (level_eq ▸ looser)
  · have reads : Reads final (expression depth tier.level) (us ++ rest) r rest :=
      hr.stop short (level_eq ▸ isPlace_ofKind is) (.inr (rank_level_lt.2 tight)) stops
    unfold extend
    split
    · next is' => rw [is'] at is; cases is
    · next is' => rw [is'] at is; cases is
    · rw [level_eq]
      exact reads_bind.2 ⟨r, rest, reads, reads_pure.2 ⟨rfl, rfl⟩⟩

/-! ### Lists -/

theorem expression {tier : Tier} (h : Complete final (.expr tier e) ts) :
    Complete final (.item .expression e) ts :=
  fun _ _ short stops => h.stop short isPlace_lowest (lowest_holds tier) stops

theorem parameter (is : t.kind = .ident) :
    Complete final (.item .parameter (.ident t t.literal)) [t] :=
  fun _ rest _ _ => reads_parameter.2 ⟨t, rest, is, rfl, rfl, rfl⟩

theorem empty {i : Item} : Complete final (.list i []) [] :=
  fun _ t rest _ closes =>
    (reads_listUntil (ne_eof_of_closesList closes)).2 (.inl ⟨t, rest, rfl, rfl, rfl, rfl⟩)

/-- What closes a list does not open an item and does not continue one. -/
theorem not_opens_of_closesList {kind : Token.Kind} (h : closesList kind) : opens kind = false := by
  rcases closesList_iff.1 h with rfl | rfl <;> rfl

/-- Behind an item stands a comma or what closes the list. -/
theorem stops_others (starts : ts = [] ∨ headKind ts = .comma) (closes : closesList t.kind) :
    Stops .lowest (ts ++ t :: us) := by
  rcases starts with rfl | comma
  · rcases closesList_iff.1 closes with is | is <;> exact stops_of_kind is rfl nofun
  · cases ts with
    | nil => cases comma
    | cons v ts => exact stops_of_kind comma rfl nofun

theorem listed {i : Item} {es : List Node} (starts : opens (headKind ts))
    (starts' : us = [] ∨ headKind us = .comma) (first : Complete final (.item i e) ts)
    (others : Complete final (.others i es) us) :
    Complete final (.list i (e :: es)) (ts ++ us) := by
  intro depth t rest short closes
  rw [List.append_assoc] at short ⊢
  refine (reads_listUntil (ne_eof_of_closesList closes)).2 (.inr ⟨?_, e, us ++ t :: rest,
    first short (stops_others starts' closes), es, t :: rest,
    others (lt_of_append short) (Nat.le_refl _) closes, t, rest, rfl, rfl, rfl, rfl⟩)
  rw [headKind_append (ne_eof_of_opens starts)]
  intro same
  rw [same, not_opens_of_closesList closes] at starts
  cases starts

theorem noOther {i : Item} : Complete final (.others i []) [] := by
  intro depth n t rest short enough closes
  cases n with
  | zero => exact absurd enough (Nat.not_succ_le_zero _)
  | succ n =>
      refine reads_afterCommas.2 (.inr ⟨?_, rfl, rfl⟩)
      change t.kind ≠ .comma
      rcases closesList_iff.1 closes with is | is <;> rw [is] <;> nofun

theorem other {i : Item} {es : List Node} (comma : t.kind = .comma)
    (starts' : us = [] ∨ headKind us = .comma) (first : Complete final (.item i e) ts)
    (others : Complete final (.others i es) us) :
    Complete final (.others i (e :: es)) (t :: (ts ++ us)) := by
  intro depth n u rest short enough closes
  cases n with
  | zero => exact absurd enough (Nat.not_succ_le_zero _)
  | succ n =>
      rw [List.cons_append, List.append_assoc] at short enough ⊢
      have behind := lt_of_cons short
      have fewer := le_of_append (Nat.le_of_succ_le_succ enough)
      exact reads_afterCommas.2 (.inl ⟨t, _, comma, rfl, e, us ++ u :: rest,
        first behind (stops_others starts' closes), es, _,
        others (lt_of_append behind) fewer closes, rfl, rfl⟩)

/-! ### Pairs -/

theorem noPair : Complete final (.pairs []) [] := by
  intro depth n t rest short enough closed
  cases n with
  | zero => exact absurd enough (Nat.not_succ_le_zero _)
  | succ n => exact reads_pairs.2 (.inl ⟨t, rest, closed, rfl, rfl, rfl⟩)

theorem ne_rbrace_of_opens {kind : Token.Kind} (h : opens kind) : kind ≠ .rbrace := by
  intro same
  subst same
  cases h

theorem lastPair {k v : Node} (starts : opens (headKind ts))
    (key : Complete final (.item .expression k) ts) (colon : t.kind = .colon)
    (value : Complete final (.item .expression v) us) :
    Complete final (.pairs [(k, v)]) (ts ++ t :: us) := by
  intro depth n w rest short enough closed
  rw [List.append_assoc] at short enough ⊢
  have behind := lt_of_cons (lt_of_append short)
  have fewer := le_of_append enough
  cases n with
  | zero => exact absurd fewer (Nat.not_succ_le_zero _)
  | succ n =>
      have fewer' := le_of_append (Nat.le_of_succ_le_succ fewer)
      have last : Reads final (Parser.pairs (Parser.expression depth) n) (w :: rest) [] rest :=
        noPair (lt_of_append behind) fewer' closed
      refine reads_pairs.2 (.inr ⟨?_, k, _, key short (stops_of_kind colon rfl nofun), t, _, colon,
        rfl, v, w :: rest, value behind (stops_of_kind closed rfl (by decide)),
        .inr ⟨closed, [], rest, last, rfl, rfl⟩⟩)
      -- No first pair starts with a closing brace, so it is not taken for the end of the hash.
      rw [headKind_append (ne_eof_of_opens starts)]
      exact ne_rbrace_of_opens starts

theorem pair {k v : Node} {ps : List (Node × Node)} (starts : opens (headKind ts))
    (key : Complete final (.item .expression k) ts) (colon : t.kind = .colon)
    (value : Complete final (.item .expression v) us) (comma : u.kind = .comma)
    (others : Complete final (.pairs ps) vs) :
    Complete final (.pairs ((k, v) :: ps)) (ts ++ t :: (us ++ u :: vs)) := by
  intro depth n w rest short enough closed
  simp only [List.append_assoc, List.cons_append] at short enough ⊢
  have behind := lt_of_cons (lt_of_append short)
  have last := lt_of_cons (lt_of_append behind)
  have fewer := le_of_append enough
  cases n with
  | zero => exact absurd fewer (Nat.not_succ_le_zero _)
  | succ n =>
      have fewer' := Nat.le_of_succ_le (le_of_append (Nat.le_of_succ_le_succ fewer))
      refine reads_pairs.2 (.inr ⟨?_, k, _, key short (stops_of_kind colon rfl nofun), t, _, colon,
        rfl, v, _, value behind (stops_of_kind comma rfl nofun), .inl ⟨?_, u, _, comma, rfl, ps,
        rest, others last fewer' closed, rfl, rfl⟩⟩)
      · rw [headKind_append (ne_eof_of_opens starts)]
        exact ne_rbrace_of_opens starts
      · rw [headKind_cons, comma]
        exact nofun

/-! ### Functions, blocks and statements -/

theorem block {ss : List Node} (opened : t.kind = .lbrace) (body : Complete final (.stmts ss) ts)
    (closed : u.kind = .rbrace) :
    Complete final (.block (.block t ss)) (t :: (ts ++ [u])) := by
  intro depth rest short
  rw [List.cons_append, List.append_assoc] at short ⊢
  refine reads_block.2 ⟨t, _, opened, rfl, ss, u :: rest,
    body (lt_of_cons short) (Nat.le_refl _) ?_ ?_ (.inl closed), u, rest, ⟨closed, rfl⟩, rfl, rfl⟩
  · intro kind
    cases kind <;> decide
  · change (u.kind != .rbrace && u.kind != .eof) = false
    rw [closed]
    rfl

theorem function {ps : List Node} {b : Node} (opened : t.kind = .lparen)
    (list : Complete final (.list .parameter ps) ts) (closed : u.kind = .rparen)
    (body : Complete final (.block b) us) :
    Complete final (.function ps b) (t :: (ts ++ u :: us)) := by
  intro depth rest make short
  rw [List.cons_append, List.append_assoc] at short ⊢
  have inside := lt_of_cons short
  have behind := lt_of_cons (lt_of_append inside)
  have reads := list inside (closesList_iff.2 (.inl closed))
  rw [closed] at reads
  exact reads_parametersAndBody.2
    ⟨t, _, opened, rfl, ps, us ++ rest, reads, b, rest, body behind, rfl, rfl⟩

theorem letStmt (is : t.kind = .kwLet) (name : u.kind = .ident) (assign : v.kind = .assign)
    (value : Complete final (.item .expression e) ts) :
    Complete final (.stmt (.letStmt t ⟨u, u.literal⟩ e)) (t :: u :: v :: ts) := by
  intro depth rest us short stops ends
  rw [reads_statement]
  simp only [List.cons_append, headKind_cons, is] at short ⊢
  have behind := lt_of_cons (lt_of_cons (lt_of_cons short))
  exact reads_letStatement.2
    ⟨u, _, name, rfl, v, _, assign, rfl, e, rest, value behind stops, ends, rfl⟩

theorem returnStmt (is : t.kind = .kwReturn) (value : Complete final (.item .expression e) ts) :
    Complete final (.stmt (.returnStmt t e)) (t :: ts) := by
  intro depth rest us short stops ends
  rw [reads_statement]
  simp only [List.cons_append, headKind_cons, is] at short ⊢
  exact reads_returnStatement.2 ⟨e, rest, value (lt_of_cons short) stops, ends, rfl⟩

theorem exprStmt (starts : opens t.kind) (value : Complete final (.item .expression e) (t :: ts)) :
    Complete final (.stmt (.exprStmt t e)) (t :: ts) := by
  intro depth rest us short stops ends
  rw [reads_statement]
  have reads : Reads final (expressionStatement (Parser.expression depth)) (t :: ts ++ rest)
      (.exprStmt t e) us :=
    reads_expressionStatement.2 ⟨e, rest, value short stops, ends, rfl⟩
  rw [List.cons_append, headKind_cons] at *
  split
  · next is => rw [is] at starts; cases starts
  · next is => rw [is] at starts; cases starts
  · exact reads

theorem noStmt : Complete final (.stmts []) [] :=
  fun _ _ _ _ _ _ _ stops _ => (reads_statementsWhile_done stops).2 ⟨rfl, rfl⟩

theorem closed {s : Node} {ss : List Node} (starts : opensStmt (headKind ts))
    (first : Complete final (.stmt s) ts) (semicolon : t.kind = .semicolon)
    (others : Complete final (.stmts ss) us) :
    Complete final (.stmts (s :: ss)) (ts ++ t :: us) := by
  intro depth n more rest short enough goes stops last
  rw [List.append_assoc] at short enough ⊢
  have fewer := le_of_append enough
  cases n with
  | zero => exact absurd fewer (Nat.not_succ_le_zero _)
  | succ n =>
      have go : more (headKind (ts ++ t :: us ++ rest)) := by
        rw [List.append_assoc, headKind_append (ne_eof_of_opensStmt starts)]
        exact goes _ starts
      rw [List.append_assoc] at go
      exact (reads_statementsWhile go).2 ⟨s, us ++ rest,
        first short (stops_of_kind semicolon rfl nofun) (.inl ⟨t, semicolon, rfl⟩), ss, rest,
        others (lt_of_cons (lt_of_append short)) (Nat.le_of_succ_le_succ fewer) goes stops last,
        rfl, rfl⟩

/-- An unclosed statement is followed by another one, by a closing brace or by the end. -/
theorem stops_stmts {rest : List Token} (ends : continues (headKind us) = false)
    (noSemicolon : headKind us ≠ .semicolon) (starts : us = [] ∨ opensStmt (headKind us))
    (last : headKind rest = .rbrace ∨ headKind rest = .eof) :
    Stops .lowest (us ++ rest) ∧ headKind (us ++ rest) ≠ .semicolon := by
  rcases starts with rfl | starts
  · rcases last with is | is <;>
      simp only [Stops, Level.lowest_admits, List.nil_append, is] <;> decide
  · rw [Stops, Level.lowest_admits, headKind_append (ne_eof_of_opensStmt starts)]
    refine ⟨⟨ends, ?_⟩, noSemicolon⟩
    intro else_
    rw [else_] at starts
    cases starts

theorem unclosed {s : Node} {ss : List Node} (starts : opensStmt (headKind ts))
    (first : Complete final (.stmt s) ts) (ends : continues (headKind us) = false)
    (noSemicolon : headKind us ≠ .semicolon) (starts' : us = [] ∨ opensStmt (headKind us))
    (others : Complete final (.stmts ss) us) :
    Complete final (.stmts (s :: ss)) (ts ++ us) := by
  intro depth n more rest short enough goes stops last
  have taken : 0 < ts.length := List.length_pos_iff.2 (by rintro rfl; cases starts)
  obtain ⟨follows, noSemicolon'⟩ := stops_stmts ends noSemicolon starts' last
  have go : more (headKind (ts ++ (us ++ rest))) := by
    rw [headKind_append (ne_eof_of_opensStmt starts)]
    exact goes _ starts
  rw [List.append_assoc] at short enough ⊢
  have fewer : (us ++ rest).length < n := by
    rw [List.length_append] at enough
    omega
  cases n with
  | zero => exact absurd fewer (Nat.not_lt_zero _)
  | succ n =>
      exact (reads_statementsWhile go).2 ⟨s, us ++ rest,
        first short follows (.inr ⟨noSemicolon', rfl⟩), ss, rest,
        others (lt_of_append short) (Nat.le_of_lt_succ fewer) goes stops last, rfl, rfl⟩

omit [IsEnd final] in
theorem program {ss : List Node} (statements : Complete final (.stmts ss) ts) :
    Complete final (.program (.program ss)) ts := by
  have short : (ts ++ []).length ≤ ts.length := Nat.le_of_eq (by rw [List.append_nil])
  have goes : ∀ kind, opensStmt kind → kind != .eof := by
    intro kind
    cases kind <;> decide
  have reads := statements (Nat.lt_succ_of_le short) short goes rfl (.inr rfl)
  rw [List.append_nil] at reads
  exact reads_program.2 ⟨ss, [], reads, rfl, rfl⟩

end Complete

theorem complete [IsEnd final] {phrase : Phrase} {ts : List Token} (h : Derives phrase ts) :
    Complete final phrase ts := by
  induction h with
  | ident is => exact .ident is
  | int is short => exact .int is short
  | str is => exact .str is
  | kwTrue is | kwFalse is => exact .bool is
  | group is _ closed inner => exact .group is inner closed
  | array is _ closed list => exact .array is list closed
  | hash is _ closed pairs => exact .hash is pairs closed
  | ifThen is opened _ closed _ condition body => exact .ifThen is opened condition closed body
  | ifElse is opened _ closed _ else_ _ condition body alternative =>
      exact .ifElse is opened condition closed body else_ alternative
  | fnLit is _ function => exact .fnLit is function
  | macroLit is _ function => exact .macroLit is function
  | call _ is _ closed callee list => exact .call callee is list closed
  | index _ is _ closed container position => exact .index container is position closed
  | unary is _ tight operand => exact .unary is operand tight
  | binary is _ loose _ tight left right => exact .binary is left loose right tight
  | expression _ h => exact .expression h
  | parameter is => exact .parameter is
  | empty => exact .empty
  | listed h h' first others => exact .listed h.starts h'.starts first others
  | noOther => exact .noOther
  | other comma _ h first others => exact .other comma h.starts first others
  | noPair => exact .noPair
  | lastPair h colon _ key value => exact .lastPair h.starts key colon value
  | pair h colon _ comma _ key value others =>
      exact .pair h.starts key colon value comma others
  | function opened _ closed _ list body => exact .function opened list closed body
  | block opened _ closed body => exact .block opened body closed
  | letStmt is name assign _ value => exact .letStmt is name assign value
  | returnStmt is _ value => exact .returnStmt is value
  | exprStmt h value => exact .exprStmt h.starts value
  | noStmt => exact .noStmt
  | closed h semicolon _ first others => exact .closed h.starts first semicolon others
  | unclosed h ends noSemicolon h' first others =>
      exact .unclosed h.starts first ends noSemicolon h'.starts others
  | program _ statements => exact .program statements

theorem parseTokens_of_derives [IsEnd final] {ts : List Token} {p : Node}
    (h : Derives (.program p) ts) : parseTokens ⟨ts, final⟩ = ⟨p, []⟩ :=
  parseTokens_eq_iff.2 ⟨[], complete h⟩

/-- A program that the tokens spell is what they are read as. -/
theorem parseTokens_of_spells [IsEnd final] {ts : List Token} {p : Node} (h : Spells ts p) :
    (parseTokens ⟨ts, final⟩).errors = [] ∧ (parseTokens ⟨ts, final⟩).program.erase = p.erase := by
  obtain ⟨q, same, derived⟩ := h
  rw [parseTokens_of_derives derived]
  exact ⟨rfl, same⟩

end Parser

open Grammar

/-- Tokens that the grammar derives a program from are read without a mistake as that program, up
to the tokens in its nodes. So they can be read in one way only, and an expression written with no
more parentheses than its operators need is read as itself. -/
theorem parseTokens_complete {final : Token} (ends : final.kind = .eof) :
    (∀ ts p, Spells ts p → (parseTokens ⟨ts, final⟩).errors = [] ∧
      (parseTokens ⟨ts, final⟩).program.erase = p.erase) ∧
    (∀ ts p q, Spells ts p → Spells ts q → p.erase = q.erase) ∧
    (∀ ts e, e.fits .expression → ts.map Token.word = e.words minimalParens →
      (parseTokens ⟨ts, final⟩).errors = [] ∧
      (parseTokens ⟨ts, final⟩).program.erase = (Node.program [.exprStmt none e]).erase) := by
  have : Parser.IsEnd final := ⟨ends⟩
  refine ⟨fun ts p => Parser.parseTokens_of_spells, fun ts p q hp hq => ?_, fun ts e fits h => ?_⟩
  · have read : (parseTokens ⟨ts, final⟩).program.erase = p.erase :=
      (Parser.parseTokens_of_spells hp).2
    exact read.symm.trans (Parser.parseTokens_of_spells hq).2
  · refine Parser.parseTokens_of_spells (Node.spells_words minimalParens_apt ?_ ?_)
    · simpa only [Node.fits, Node.fitsAll, Bool.and_true] using fits
    · simpa only [Node.words, Node.stmtsWords, minimalParens_equality, Node.isExprStmt,
        List.isEmpty_nil, Bool.and_self, ↓reduceIte, List.append_nil, parenthesized,
        Bool.false_eq_true] using h

/-- The tokens of `a b` are two statements, those of `a - (b - c)` a difference. -/
theorem parseTokens_complete_difference :
    let a : Token := ⟨.ident, "a", ⟨1, 1⟩⟩
    let b : Token := ⟨.ident, "b", ⟨1, 6⟩⟩
    let final : Token := ⟨.eof, "", ⟨1, 12⟩⟩
    let e : Node := .binary none (.ident none "a") "-"
      (.binary none (.ident none "b") "-" (.ident none "c"))
    let ts : List Token := [a, ⟨.minus, "-", ⟨1, 3⟩⟩, ⟨.lparen, "(", ⟨1, 5⟩⟩, b,
      ⟨.minus, "-", ⟨1, 8⟩⟩, ⟨.ident, "c", ⟨1, 10⟩⟩, ⟨.rparen, ")", ⟨1, 11⟩⟩]
    ((parseTokens ⟨[a, b], final⟩).errors = [] ∧ (parseTokens ⟨[a, b], final⟩).program.erase =
      .program [.exprStmt none (.ident none "a"), .exprStmt none (.ident none "b")]) ∧
    (parseTokens ⟨ts, final⟩).errors = [] ∧
      (parseTokens ⟨ts, final⟩).program.erase = (Node.program [.exprStmt none e]).erase := by
  intro a b final e ts
  have name (t : Token) (is : t.kind = .ident) :
      Derives (.stmt (.exprStmt t (.ident t t.literal))) [t] :=
    .exprStmt (.expression (.ident is))
  refine ⟨(parseTokens_complete rfl).1 [a, b]
    (.program [.exprStmt none (.ident none "a"), .exprStmt none (.ident none "b")]) ?_,
    (parseTokens_complete rfl).2.2 ts e (by decide) (by decide)⟩
  exact ⟨.program [.exprStmt a (.ident a a.literal), .exprStmt b (.ident b b.literal)], rfl,
    .program (.unclosed (name a rfl) rfl (by decide)
      (.unclosed (name b rfl) rfl (by decide) .noStmt))⟩

end MonkeyLang
