import MonkeyLang.Proofs.Evaluation.Compared

/-!
# Evaluators

`evaluate` ties the knot of the forms of evaluation. Other evaluators may keep to the forms in some
cases only, and do as they like in all others. If a computation is the same with every evaluator
that keeps to the forms in certain cases, then none but such cases come up in it.

* `Evaluator.KeepsTo` says in which cases an evaluator keeps to the forms.
* `Evaluator.capped` is one that halts where evaluation comes to a value that is not wanted.
* `Eval.Terms.agree_of_forms` compares two evaluators of any depth.
-/

namespace MonkeyLang

open Grammar

/-- Something that evaluates a tree in a scope, with not more than so many evaluations inside each
other. -/
abbrev Evaluator := Nat → Node → ScopeId → Eval Value

/-- A case of evaluation: the machine before it, the tree, and how it ends. -/
abbrev Evaluator.Case := Machine → Node → EStateM.Result Exit Machine Value → Prop

/-- In these cases the evaluator does what the forms of evaluation over it do. -/
structure Evaluator.KeepsTo (case : Evaluator.Case) (ev : Evaluator) : Prop where
  zero : ∀ node e, ev 0 node e = throw (.halted .overflow)
  succ : ∀ depth node e m, case m node ((Eval.form depth (ev depth) node e).run m) →
    (ev (depth + 1) node e).run m = (Eval.form depth (ev depth) node e).run m

theorem Evaluator.evaluate_keepsTo (case : Evaluator.Case) : KeepsTo case evaluate :=
  ⟨fun _ _ => rfl, fun _ _ _ _ _ => rfl⟩

/-- The evaluation ends with such a value or with none. -/
def Evaluator.Case.value (wanted : Value → Bool) : Evaluator.Case
  | _, _, .ok v _ => wanted v
  | _, _, .error _ _ => True

namespace Eval.Terms

variable (T : Eval.Terms)

/-- Two evaluators agree if they do wherever the forms over them do. -/
theorem agree_of_forms {ev ev' : Evaluator} (zero : ∀ e, T.Agree (ev 0 · e) (ev' 0 · e))
    (succ : ∀ depth e roles category node, node.Proper roles category →
      T.Alike roles (form depth (ev depth) node e) (form depth (ev' depth) node e)
        (fun roles' v => v.Proper roles') →
      T.Alike roles (ev (depth + 1) node e) (ev' (depth + 1) node e)
        fun roles' v => v.Proper roles' ∧ T.Fine v) (depth : Nat) :
    ∀ e, T.Agree (ev depth · e) (ev' depth · e) := by
  induction depth with
  | zero => exact zero
  | succ depth ih =>
      intro e roles category node proper
      exact succ depth e roles category node proper (T.form_alike ih depth e proper)

/-- On proper trees `evaluate` is as good as every evaluator that keeps to the forms there. -/
theorem agree_evaluate (fine : ∀ v, T.Fine v) {ev : Evaluator} {case : Evaluator.Case}
    (keeps : ev.KeepsTo case)
    (proper : ∀ {roles : Roles} {category m node r}, m.Proper roles → node.Proper roles category →
      case m node r) (depth : Nat) (e : ScopeId) :
    T.Agree (evaluate depth · e) (ev depth · e) := by
  refine T.agree_of_forms (fun e roles category node _ => ?_)
    (fun depth e roles category node nodeProper forms m m' before beside => ?_) depth e
  · dsimp only
    rw [keeps.zero, evaluate]
    exact T.halt_alike T.overflow
  -- The other evaluator runs on the machine with the other output, which is as proper.
  · obtain ⟨events, -, rfl⟩ := id beside
    have before' : ({ m with events := events } : Machine).Proper roles := before.of_eq rfl rfl
    rw [evaluate, keeps.succ _ _ _ _ (proper before' nodeProper)]
    exact forms.mono (fun _ v _ h => ⟨h, fine v⟩) m _ before beside

end Eval.Terms

end MonkeyLang
