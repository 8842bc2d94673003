import MonkeyLang.Proofs.Parser.Honest

/-!
# The names of let statements

Whatever is wrong with a text, a let statement in what it is read as comes from the keyword and an
identifier behind it, and that identifier is its name. Since no parser takes a token back, this is
so wherever the statement stands.

* `Parser.NamedIn` says so of a statement and a row of tokens.
* `Parser.namedIn_of_mem_statements` is the result for all statements of a program.
-/

namespace MonkeyLang

namespace Parser

/-- The name that the statement binds, if it is a let statement, stands among the tokens, behind
the keyword. -/
def NamedIn (tokens : List Token) (statement : Node) : Prop :=
  ∀ t name value, statement = .letStmt t name value →
    ∃ l u : Token, [l, u] <:+: tokens ∧ l.kind = .kwLet ∧ u.kind = .ident ∧
      name = ⟨some u, u.literal⟩

theorem NamedIn.of_suffix {tokens later : List Token} (suffix : later <:+ tokens)
    {statement : Node} (h : NamedIn later statement) : NamedIn tokens statement := by
  intro t name value same
  obtain ⟨l, u, found, rest⟩ := h t name value same
  exact ⟨l, u, found.trans suffix.isInfix, rest⟩

/-- A stream that has a token of another kind than the end marker before it is not at its end. -/
theorem unread_of_kind {tokens : TokenStream} (ends : tokens.final.kind = .eof)
    {kind : Token.Kind} (next : tokens.peek.kind = kind) (inside : kind ≠ .eof) :
    tokens.unread = tokens.peek :: tokens.tail.unread := by
  obtain ⟨unread, final⟩ := tokens
  cases unread with
  | nil => exact absurd (next.symm.trans ends) inside
  | cons t ts => rfl

section

variable {expr : Level → Parse Node} {k k' : Cursor} {node : Node}

theorem namedIn_letStatement (ends : k.tokens.final.kind = .eof)
    (keyword : k.tokens.peek.kind = .kwLet)
    (read : result (letStatement expr) k = (some node, k')) : NamedIn k.tokens.unread node := by
  have start : result advance k = (some k.tokens.peek, k.advanced) := rfl
  unfold letStatement at read
  rw [result_bind, start] at read
  dsimp only at read
  rw [result_bind, result_expect] at read
  by_cases ident : k.advanced.tokens.peek.kind = .ident
  · rw [if_pos ident] at read
    dsimp only at read
    -- The name has been read; the statement is made of it, whatever is read behind it.
    intro t name value same
    subst same
    refine ⟨k.tokens.peek, k.advanced.tokens.peek, ?_, keyword, ident, ?_⟩
    · have first := unread_of_kind ends keyword nofun
      have second : k.advanced.tokens.unread = _ := unread_of_kind ends ident nofun
      rw [first]
      change _ <:+: _ :: k.advanced.tokens.unread
      rw [second]
      exact List.IsPrefix.isInfix ⟨_, rfl⟩
    · rw [result_bind] at read
      split at read
      · next assign _ =>
        rw [result_bind] at read
        split at read
        · rw [result_bind] at read
          split at read <;> cases read
          rfl
        · cases read
      · cases read
  · rw [if_neg ident] at read
    cases read

/-- A statement with one expression in it is no let statement. -/
theorem namedIn_simple {start : Parse Token} {make : Token → Node → Node} {tokens : List Token}
    (other : ∀ u v t name value, make u v ≠ .letStmt t name value)
    (read : result (do
      let start ← start
      let value ← expr .lowest
      let _ ← accept .semicolon
      return make start value) k = (some node, k')) : NamedIn tokens node := by
  rw [result_bind] at read
  split at read
  · rw [result_bind] at read
    split at read
    · rw [result_bind] at read
      split at read <;> cases read
      exact fun t name value same => absurd same (other _ _ t name value)
    · cases read
  · cases read

theorem namedIn_statement (ends : k.tokens.final.kind = .eof)
    (read : result (statement expr) k = (some node, k')) : NamedIn k.tokens.unread node := by
  have next : result peek k = (some k.tokens.peek, k) := rfl
  unfold statement at read
  rw [result_bind, next] at read
  dsimp only at read
  split at read
  · next keyword => exact namedIn_letStatement ends keyword read
  · unfold returnStatement at read
    exact namedIn_simple (fun _ _ _ _ _ same => by cases same) read
  · unfold expressionStatement at read
    exact namedIn_simple (fun _ _ _ _ _ same => by cases same) read

theorem namedIn_statementsWhile [∀ level, Honest (expr level)] (more : Token.Kind → Bool)
    (n : Nat) {nodes : List Node} (ends : k.tokens.final.kind = .eof)
    (read : result (statementsWhile more (statement expr) n) k = (some nodes, k')) :
    ∀ node ∈ nodes, NamedIn k.tokens.unread node := by
  induction n generalizing k nodes with
  | zero =>
      cases read
      exact nofun
  | succ n ih =>
      have next : result peek k = (some k.tokens.peek, k) := rfl
      unfold statementsWhile at read
      rw [result_bind, next] at read
      dsimp only at read
      split at read
      · rw [result_bind, result_optional] at read
        have later := Honest.later (c := statement expr) k
        rcases first : result (statement expr) k with ⟨result, k₁⟩
        rw [first] at read later
        have ends₁ : k₁.tokens.final.kind = .eof := later.marker ▸ ends
        -- A statement that breaks off is left out, and the others are read from where it did.
        have others {o : Option Node} (read : Parser.result (do
            let others ← statementsWhile more (statement expr) n
            return o.toList ++ others) k₁ = (some nodes, k')) :
            ∃ others, nodes = o.toList ++ others ∧
              ∀ node ∈ others, NamedIn k.tokens.unread node := by
          rw [result_bind] at read
          split at read
          · next others _ readOthers =>
            cases read
            refine ⟨others, rfl, fun node mem => ?_⟩
            exact (ih ends₁ readOthers node mem).of_suffix later.unread
          · cases read
        cases result with
        | none =>
            obtain ⟨others, rfl, named⟩ := others read
            exact named
        | some node =>
            obtain ⟨others, rfl, named⟩ := others read
            exact List.forall_mem_cons.2 ⟨namedIn_statement ends first, named⟩
      · cases read
        exact nofun

end

/-- The let statements in what a stream of tokens is read as have their names from it. -/
theorem namedIn_of_mem_statements {tokens : TokenStream} (ends : tokens.final.kind = .eof) :
    ∀ node ∈ (parseTokens tokens).program.statements, NamedIn tokens.unread node := by
  intro node mem
  have size (k : Cursor) : result ahead k = (some k.tokens.unread.length, k) := rfl
  change node ∈ Node.statements ((result program ⟨tokens, []⟩).1.getD .missing) at mem
  unfold program at mem
  rw [result_bind, size] at mem
  dsimp only at mem
  rw [result_bind] at mem
  split at mem
  · next read => exact namedIn_statementsWhile _ _ ends read node mem
  · cases mem

end Parser

end MonkeyLang
