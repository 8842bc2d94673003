import MonkeyLang.Eval
import MonkeyLang.Proofs.Machine.Runs
import MonkeyLang.Proofs.Node.Children

/-!
# Evaluation at greater depths

How deep evaluations may stand inside each other decides whether an evaluation overflows, and
nothing else. With more room it comes to the same, unless it has overflowed.

* `Eval.Within` relates a computation to one with more room.
* `Eval.evaluate_within` is the result for evaluations, `Eval.apply_evaluate_within` for calls.
-/

namespace MonkeyLang

namespace Eval

variable {α β : Type}

/-- The first computation overflows, or the second one comes to the same. -/
def Within (c c' : Eval α) : Prop :=
  ∀ m, (∃ m', c.run m = .error (.halted .overflow) m') ∨ c'.run m = c.run m

/-! ## Rules -/

namespace Within

theorem refl (c : Eval α) : Within c c := fun _ => .inr rfl

theorem overflow {c : Eval α} : Within (throw (.halted .overflow)) c := fun m => .inl ⟨m, rfl⟩

theorem bind {c c' : Eval α} {next next' : α → Eval β} (first : Within c c')
    (then_ : ∀ a, Within (next a) (next' a)) : Within (c >>= next) (c' >>= next') := by
  intro m
  rcases first m with ⟨m', overflows⟩ | same
  · exact .inl ⟨m', run_bind_of_exit overflows⟩
  · rw [EStateM.run_bind, EStateM.run_bind, same]
    cases c.run m with
    | ok a m₁ => exact then_ a m₁
    | error exit m₁ => exact .inr rfl

/-- What follows is the same. -/
theorem bind_refl {c c' : Eval α} (h : Within c c') (next : α → Eval β) :
    Within (c >>= next) (c' >>= next) :=
  h.bind fun a => .refl (next a)

/-- The handler lets an overflow through. -/
theorem tryCatch {c c' : Eval α} (h : Within c c') {handler : Exit → Eval α}
    (lets : handler (.halted .overflow) = throw (.halted .overflow)) :
    Within (MonadExcept.tryCatch c handler) (MonadExcept.tryCatch c' handler) := by
  intro m
  rw [run_tryCatch, run_tryCatch]
  rcases h m with ⟨m', overflows⟩ | same
  · rw [overflows]
    dsimp only
    rw [lets]
    exact .inl ⟨m', rfl⟩
  · rw [same]
    exact .inr rfl

variable {f f' : Node → Eval Node}

theorem mapM {nodes : List Node}
    (each : ∀ n ∈ nodes, Within (f n) (f' n)) : Within (nodes.mapM f) (nodes.mapM f') := by
  induction nodes with
  | nil => exact .refl _
  | cons n nodes ih =>
      rw [List.mapM_cons, List.mapM_cons]
      refine (each n (.head _)).bind fun n' => ?_
      exact (ih fun n mem => each n (.tail _ mem)).bind_refl _

theorem transformM (each : ∀ n, Within (f n) (f' n)) (node : Node) :
    Within (node.transformM f) (node.transformM f') := by
  have given (n : Node) : Within (Node.giveM f n) (Node.giveM f' n) := by
    cases n with
    | missing => exact .refl _
    | _ => exact each _
  induction node using Node.childInduction with
  | step node ih =>
    rw [Node.transformM_eq, Node.transformM_eq]
    exact (mapM ih).bind fun ns => given _

theorem belowM (each : ∀ n, Within (f n) (f' n)) (node : Node) :
    Within (node.belowM f) (node.belowM f') := by
  rw [Node.belowM_eq, Node.belowM_eq, map_eq_pure_bind, map_eq_pure_bind]
  exact (mapM fun n _ => transformM each n).bind_refl _

end Within

/-! ## Forms -/

section

variable {run run' : Node → Eval Value} (each : ∀ n, Within (run n) (run' n))

include each

theorem sequence_within : ∀ nodes, Within (sequence run nodes) (sequence run' nodes)
  | [] => .refl _
  | [n] => each n
  | n :: next :: nodes => (each n).bind fun _ => sequence_within (next :: nodes)

theorem values_within (nodes : List Node) : Within (values run nodes) (values run' nodes) := by
  induction nodes with
  | nil => exact .refl _
  | cons n nodes ih => exact (each n).bind fun _ => ih.bind_refl _

theorem entries_within : ∀ done pairs, Within (entries run done pairs) (entries run' done pairs)
  | _, [] => .refl _
  | done, (keyNode, valueNode) :: pairs => by
    refine (each keyNode).bind fun key => ?_
    cases key.hashKey? with
    | none => exact .refl _
    | some digest => exact (each valueNode).bind fun value => entries_within _ pairs

theorem choose_within (condition consequence alternative : Node) :
    Within (choose run condition consequence alternative)
      (choose run' condition consequence alternative) := by
  refine (each condition).bind fun v => ?_
  split
  · exact each consequence
  · split
    · exact .refl _
    · exact each alternative

omit each in
theorem catchReturn_within {c c' : Eval Value} (h : Within c c') :
    Within (catchReturn c) (catchReturn c') :=
  h.tryCatch rfl

theorem substitute?_within (node : Node) :
    Within (Quote.substitute? run node) (Quote.substitute? run' node) := by
  unfold Quote.substitute?
  split
  · split
    · split
      · next argument =>
          have unquoted : Within (Quote.unquoted run argument) (Quote.unquoted run' argument) :=
            (each argument).tryCatch rfl
          exact unquoted.bind_refl _
      · exact .refl _
    · exact .refl _
  · exact .refl _

theorem unquote_within {depth depth' : Nat} (more : depth ≤ depth') (node : Node) :
    Within (Quote.unquote run depth node) (Quote.unquote run' depth' node) := by
  have substituted (node kept : Node) :
      Within (do return (← Quote.substitute? run node).getD kept)
        (do return (← Quote.substitute? run' node).getD kept) :=
    (substitute?_within each node).bind_refl _
  induction depth generalizing depth' node with
  | zero =>
      cases node with
      | piece id => exact .overflow
      | _ => cases depth' <;> exact substituted _ _
  | succ depth ih =>
      obtain ⟨depth', rfl⟩ : ∃ d, depth' = d + 1 := ⟨depth' - 1, by omega⟩
      cases node with
      | piece id =>
          refine (Within.refl (piece id)).bind fun held => ?_
          refine (Within.belowM (ih (Nat.le_of_succ_le_succ more)) held).bind fun held => ?_
          exact (Within.refl (setPiece id held)).bind fun _ => substituted _ _
      | _ => exact substituted _ _

theorem quote_within {depth depth' : Nat} (more : depth ≤ depth') (nodes : List Node) :
    Within (Quote.quote run depth nodes) (Quote.quote run' depth' nodes) := by
  match nodes with
  | [node] =>
    refine (Within.refl (Quote.copy node)).bind fun copy => ?_
    exact (Within.transformM (unquote_within each more) copy).bind_refl _
  | [] | _ :: _ :: _ => exact .refl _

end

section

variable {run run' : Node → ScopeId → Eval Value} (each : ∀ n e, Within (run n e) (run' n e))

include each

theorem apply_within (callee : Value) (arguments : List Value) :
    Within (apply run callee arguments) (apply run' callee arguments) := by
  cases callee with
  | function serial parameters body scope =>
      unfold apply
      dsimp only
      split
      · exact .refl _
      · exact (Within.refl _).bind fun inner => catchReturn_within (each body inner)
  | _ => exact .refl _

theorem call_within {depth depth' : Nat} (more : depth ≤ depth') (scope : ScopeId) (callee : Node)
    (arguments : List Node) :
    Within (call depth run scope callee arguments) (call depth' run' scope callee arguments) := by
  unfold call
  split
  · exact quote_within (each · scope) more arguments
  · refine (each callee scope).bind fun function => ?_
    exact (values_within (each · scope) arguments).bind fun values => apply_within each _ values

/-- With more room for the trees inside it, a form has more room. -/
theorem form_within {depth depth' : Nat} (more : depth ≤ depth') (node : Node) (scope : ScopeId) :
    Within (form depth run node scope) (form depth' run' node scope) := by
  have inner (n : Node) := each n scope
  cases node with
  | program statements => exact catchReturn_within (sequence_within inner statements)
  | block _ statements => exact sequence_within inner statements
  | letStmt _ _ value | returnStmt _ value | unary _ _ value => exact (inner value).bind_refl _
  | exprStmt _ value => exact inner value
  | array _ elements => exact (values_within inner elements).bind_refl _
  | hash _ pairs => exact (entries_within inner [] pairs).bind_refl _
  | binary _ left _ right => exact (inner left).bind fun _ => (inner right).bind_refl _
  | ifElse _ condition consequence alternative =>
      exact choose_within inner condition consequence alternative
  | call _ callee arguments => exact call_within each more scope callee arguments
  | index _ container position => exact (inner container).bind fun _ => (inner position).bind_refl _
  | piece id => exact (Within.refl _).bind fun held => inner held
  | missing | ident | int | bool | str | fnLit | macroLit => exact .refl _

end

/-! ## Evaluations -/

/-- At a greater depth an evaluation comes to the same, unless it has overflowed. -/
theorem evaluate_within {depth depth' : Nat} (more : depth ≤ depth') (node : Node)
    (scope : ScopeId) : Within (evaluate depth node scope) (evaluate depth' node scope) := by
  -- One form is evaluated at each depth, so the depth is what the trees inside it have less of.
  induction depth generalizing depth' node scope with
  | zero => exact .overflow
  | succ depth ih =>
      obtain ⟨depth', rfl⟩ : ∃ d, depth' = d + 1 := ⟨depth' - 1, by omega⟩
      have more := Nat.le_of_succ_le_succ more
      exact form_within (ih more) more node scope

/-- So does a call. -/
theorem apply_evaluate_within {depth depth' : Nat} (more : depth ≤ depth') (callee : Value)
    (arguments : List Value) :
    Within (apply (evaluate depth) callee arguments) (apply (evaluate depth') callee arguments) :=
  apply_within (evaluate_within more) callee arguments

end Eval

end MonkeyLang
