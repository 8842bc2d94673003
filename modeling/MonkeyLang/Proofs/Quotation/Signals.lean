import MonkeyLang.Proofs.Quotation.Rewriting

/-!
# Signals from inside a quotation

A quotation rewrites a copy of its tree from the leaves up and from left to right. When it comes to
a call of `unquote`, all calls before it have been replaced. If the call cannot be replaced, the
quotation ends there: with the fault of the argument, if there is one, but a return does not leave
it.

* `Quote.Reaches` says that the rewriting of a tree comes to such a call.
* `signal_from_quotation` says what then becomes of the quotation.
-/

namespace MonkeyLang

namespace Quote

variable (evaluate : Node → Eval Value)

/-- The rewriting of a tree comes to a call of `unquote` with these arguments, in a machine in which
all calls before it have been replaced. At most `depth` pieces stand inside each other. -/
inductive Reaches : Nat → Node → Machine → List Node → Machine → Prop
  | here {depth : Nat} {n : Node} {t u : Option Token} {arguments : List Node} {m m₁ : Machine} :
    (n.belowM (unquote evaluate depth)).run m =
      .ok (.call t (.ident u unquoteName) arguments) m₁ →
    Reaches depth n m arguments m₁
  | child {depth : Nat} {n c : Node} {before after done arguments : List Node}
      {m m₁ m₂ : Machine} : n.children = before ++ c :: after →
    (before.mapM (Node.transformM (unquote evaluate depth))).run m = .ok done m₁ →
    Reaches depth c m₁ arguments m₂ → Reaches depth n m arguments m₂
  /-- The piece is kept with all below it rewritten. -/
  | piece {depth : Nat} {id : PieceId} {t u : Option Token} {arguments : List Node}
      {m m₁ : Machine} : ((m.pieces.get id).belowM (unquote evaluate depth)).run m =
      .ok (.call t (.ident u unquoteName) arguments) m₁ →
    Reaches (depth + 1) (.piece id) m arguments
      { m₁ with pieces := m₁.pieces.set id (.call t (.ident u unquoteName) arguments) }
  | insidePiece {depth : Nat} {id : PieceId} {c : Node} {before after done arguments : List Node}
      {m m₁ m₂ : Machine} : (m.pieces.get id).children = before ++ c :: after →
    (before.mapM (Node.transformM (unquote evaluate depth))).run m = .ok done m₁ →
    Reaches depth c m₁ arguments m₂ → Reaches (depth + 1) (.piece id) m arguments m₂

variable {evaluate} {depth : Nat} {n : Node} {arguments : List Node} {m m₁ m₂ : Machine}
  {exit : Exit}

/-- A call of `unquote` that cannot be replaced ends the rewriting. -/
theorem Reaches.run_transformM (reaches : Reaches evaluate depth n m arguments m₁)
    (fails : (splice evaluate arguments).run m₁ = .error exit m₂) :
    (n.transformM (unquote evaluate depth)).run m = .error exit m₂ := by
  induction reaches with
  | here ran =>
      refine (run_bind_of_ok ran).trans ?_
      rw [Node.giveM, unquote_call]
      · exact run_bind_of_exit (run_substitute?_of_exit fails _ _)
      · exact nofun
  | child split ran _ ih => exact run_bind_of_exit (run_belowM_of_exit split ran (ih fails))
  | @piece depth id t u arguments m m₁ ran =>
      rw [transformM_unquote_piece, run_bind_of_ok ran]
      have kept : (Eval.setPiece id (.call t (.ident u unquoteName) arguments)).run m₁ =
          .ok () { m₁ with pieces := m₁.pieces.set id (.call t (.ident u unquoteName) arguments) } :=
        rfl
      exact (run_bind_of_ok kept).trans (run_bind_of_exit (run_substitute?_of_exit fails t u))
  | insidePiece split ran _ ih =>
      rw [transformM_unquote_piece]
      exact run_bind_of_exit (run_belowM_of_exit split ran (ih fails))

end Quote

/-- What comes of an exit inside a quotation: a return does not leave it. -/
def Exit.inQuotation : Exit → Exit
  | .returned _ => .failed (.notQuotable .returnValue)
  | exit => exit

theorem Quote.run_splice_of_exit {evaluate : Node → Eval Value} {argument : Node}
    {m m₁ : Machine} {exit : Exit} (exits : (evaluate argument).run m = .error exit m₁) :
    (splice evaluate [argument]).run m = .error exit.inQuotation m₁ := by
  refine run_bind_of_exit ?_
  rw [unquoted, run_tryCatch, exits]
  cases exit <;> rfl

theorem Quote.run_splice_of_fault {evaluate : Node → Eval Value} {argument : Node}
    {m m₁ : Machine} {fault : Fault} (ran : (evaluate argument).run m = .ok (.error fault) m₁) :
    (splice evaluate [argument]).run m = .error (.failed fault) m₁ := by
  have found : (unquoted evaluate argument).run m = .ok (.error fault) m₁ := by
    rw [unquoted, run_tryCatch, ran]
  exact run_bind_of_ok found

/-- When the rewriting of a quoted tree comes to a call of `unquote` and the argument ends in a
fault, the quotation ends in that very fault, in the machine in which the argument has ended. So it
is with a fault that is a value. A halt passes, too, but of a return comes the fault that it cannot
be quoted. -/
theorem signal_from_quotation {depth : Nat} {t u : Option Token} {tree copied argument : Node}
    {scope : ScopeId} {m m₀ m₁ : Machine} (copies : (Quote.copy tree).run m = .ok copied m₀)
    (reaches : Quote.Reaches (evaluate depth · scope) depth copied m₀ [argument] m₁) :
    (∀ exit m₂, (evaluate depth argument scope).run m₁ = .error exit m₂ →
      (evaluate (depth + 1) (.call t (.ident u Quote.quoteName) [tree]) scope).run m =
        .error exit.inQuotation m₂) ∧
    ∀ fault m₂, (evaluate depth argument scope).run m₁ = .ok (.error fault) m₂ →
      (evaluate (depth + 1) (.call t (.ident u Quote.quoteName) [tree]) scope).run m =
        .error (.failed fault) m₂ := by
  have quotes : evaluate (depth + 1) (.call t (.ident u Quote.quoteName) [tree]) scope =
      Quote.quote (evaluate depth · scope) depth [tree] := by
    simp [evaluate, Eval.form, Eval.call, Node.isIdent]
  have ends {exit : Exit} {m₂ : Machine}
      (fails : (Quote.splice (evaluate depth · scope) [argument]).run m₁ = .error exit m₂) :
      (Quote.quote (evaluate depth · scope) depth [tree]).run m = .error exit m₂ :=
    (run_bind_of_ok copies).trans (run_bind_of_exit (reaches.run_transformM fails))
  rw [quotes]
  exact ⟨fun _ _ exits => ends (Quote.run_splice_of_exit exits),
    fun _ _ ran => ends (Quote.run_splice_of_fault ran)⟩

/-- The second of three calls fails, and the third is not evaluated. -/
theorem signal_from_quotation_division :
    let unquote (n : Node) : Node := .call none (.ident none Quote.unquoteName) [n]
    let dividing : Node := .binary none (.int none 1) "/" (.int none 0)
    let tree : Node := .array none [unquote (.bool none true), unquote dividing,
      unquote (.letStmt none ⟨none, "x"⟩ (.int none 1))]
    let m := Machine.empty.enter none []
    (Quote.copy tree).run m = .ok tree m ∧
      Quote.Reaches (evaluate 3 · 0) 3 tree m [dividing] m ∧
      (evaluate 3 dividing 0).run m = .error (.failed .divisionByZero) m ∧
      (evaluate 4 (.call none (.ident none Quote.quoteName) [tree]) 0).run m =
        .error (.failed .divisionByZero) m := by
  intro unquote dividing tree m
  have copies : (Quote.copy tree).run m = .ok tree m := by rfl
  have first : ([unquote (.bool none true)].mapM (Node.transformM
      (Quote.unquote (evaluate 3 · 0) 3))).run m = .ok [Quote.boolLiteral true] m := by
    rfl
  have reaches : Quote.Reaches (evaluate 3 · 0) 3 tree m [dividing] m :=
    .child rfl first (.here rfl)
  have exits : (evaluate 3 dividing 0).run m = .error (.failed .divisionByZero) m := by rfl
  exact ⟨copies, reaches, exits, (signal_from_quotation copies reaches).1 _ _ exits⟩

/-- A return inside a call of `unquote` does not keep unwinding: what leaves the quotation is a
fault. -/
theorem quotation_stops_return :
    let returning : Node := .ifElse none (.bool none true)
      (.block none [.returnStmt none (.int none 7)]) .missing
    let tree : Node := .call none (.ident none Quote.unquoteName) [returning]
    let m := Machine.empty.enter none []
    (Quote.copy tree).run m = .ok tree m ∧
      Quote.Reaches (evaluate 4 · 0) 4 tree m [returning] m ∧
      (evaluate 4 returning 0).run m = .error (.returned (.int 7)) m ∧
      (evaluate 5 (.call none (.ident none Quote.quoteName) [tree]) 0).run m ≠
        .error (.returned (.int 7)) m := by
  intro returning tree m
  have copies : (Quote.copy tree).run m = .ok tree m := by rfl
  have reaches : Quote.Reaches (evaluate 4 · 0) 4 tree m [returning] m := .here rfl
  have exits : (evaluate 4 returning 0).run m = .error (.returned (.int 7)) m := by rfl
  have quotes : (evaluate 5 (.call none (.ident none Quote.quoteName) [tree]) 0).run m =
      .error (.failed (.notQuotable .returnValue)) m := by rfl
  refine ⟨copies, reaches, exits, ?_⟩
  rw [quotes]
  intro same
  cases same

end MonkeyLang
