import MonkeyLang.Eval
import MonkeyLang.Proofs.Machine.Runs
import MonkeyLang.Proofs.Node.Children

/-!
# Rewriting a quoted tree

A quotation rewrites its tree from the leaves up and from left to right. Of each node it asks, when
all below it has been rewritten, whether it is a call of `unquote`; if so, something takes its place,
and else it stays.

* `Node.unquotes?` are the arguments of such a call.
* `Quote.splice` is what takes its place.
* `Quote.transformM_unquote_of_call` and the lemmas beside it say how the rewriting of one node goes
  on when its children have been rewritten.
-/

namespace MonkeyLang

/-- The arguments of a call of `unquote`. -/
def Node.unquotes? : Node → Option (List Node)
  | .call _ (.ident _ name) arguments => if name = Quote.unquoteName then some arguments else none
  | _ => none

theorem Node.eq_call_of_unquotes? {n : Node} {arguments : List Node}
    (h : n.unquotes? = some arguments) :
    ∃ t u, n = .call t (.ident u Quote.unquoteName) arguments := by
  unfold Node.unquotes? at h
  split at h
  · split at h
    · next name =>
        cases h
        exact ⟨_, _, by rw [name]⟩
    · cases h
  · cases h

namespace Quote

variable (evaluate : Node → Eval Value)

/-- What takes the place of a call of `unquote` with these arguments. -/
def splice : List Node → Eval Node
  | [argument] => do
    match literal (← unquoted evaluate argument) with
    | .ok node => return node
    | .error exit => throw exit
  | arguments => Eval.fail (.unquoteArity arguments.length)

theorem substitute?_call (t u : Option Token) (arguments : List Node) :
    substitute? evaluate (.call t (.ident u unquoteName) arguments) =
      some <$> splice evaluate arguments := by
  simp only [substitute?, if_true]
  match arguments with
  | [argument] =>
      rw [splice, map_bind]
      refine bind_congr fun v => ?_
      cases literal v <;> rfl
  | [] | _ :: _ :: _ => rfl

theorem substitute?_of_none {n : Node} (other : n.unquotes? = none) :
    substitute? evaluate n = pure none := by
  unfold substitute?
  split
  · next name arguments =>
      rw [if_neg]
      intro same
      simp [Node.unquotes?, same] at other
  · rfl

variable {evaluate} {depth : Nat} {n : Node} {arguments : List Node} {m m₁ m₂ : Machine}
  {exit : Exit}

theorem run_substitute?_of_exit (fails : (splice evaluate arguments).run m = .error exit m₁)
    (t u : Option Token) :
    (substitute? evaluate (.call t (.ident u unquoteName) arguments)).run m =
      .error exit m₁ := by
  rw [substitute?_call, ← bind_pure_comp]
  exact run_bind_of_exit fails

/-- An exit below one of the children is an exit below the node. -/
theorem run_belowM_of_exit {f : Node → Eval Node} {c : Node} {before after done : List Node}
    (split : n.children = before ++ c :: after)
    (ran : (before.mapM (Node.transformM f)).run m = .ok done m₁)
    (exits : (c.transformM f).run m₁ = .error exit m₂) :
    (n.belowM f).run m = .error exit m₂ := by
  rw [Node.belowM_eq, split, List.mapM_append, List.mapM_cons, map_bind]
  refine (run_bind_of_ok ran).trans ?_
  rw [bind_assoc, map_bind]
  exact run_bind_of_exit exits

/-- At a place of a piece the piece is rewritten, and then its place. -/
theorem transformM_unquote_piece (id : PieceId) (m : Machine) :
    ((Node.piece id).transformM (unquote evaluate (depth + 1))).run m =
      ((m.pieces.get id).belowM (unquote evaluate depth) >>= fun node => do
        Eval.setPiece id node
        return (← substitute? evaluate node).getD (.piece id)).run m :=
  rfl

theorem unquote_call (t u : Option Token) (arguments : List Node) :
    unquote evaluate depth (.call t (.ident u unquoteName) arguments) = do
      return (← substitute? evaluate (.call t (.ident u unquoteName) arguments)).getD
        (.call t (.ident u unquoteName) arguments) := by
  cases depth <;> rfl

end Quote

end MonkeyLang
