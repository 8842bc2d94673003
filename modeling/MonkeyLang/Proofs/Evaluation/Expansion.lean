import MonkeyLang.Expansion
import MonkeyLang.Proofs.Evaluation.Frame

/-!
# What the expansion of macros leaves alone

The body of a macro is evaluated in a scope that is opened for the call. So an expansion leaves all
scopes that there were as they were, whether it succeeds or refuses the unit.

* `Eval.Invariant.Keeps.expansionBody` says what the evaluation of a macro keeps.
* `expand_frame` is the result for a whole tree.
-/

namespace MonkeyLang

namespace Eval.Invariant

variable {I : Eval.Invariant} {e : ScopeId} {m : Machine}

theorem Keeps.quotes (arguments : List Node) (m : Machine) (at_ : I.At e m) :
    I.Keeps e m (arguments.mapM Eval.newQuote) fun m' vs => ∀ v ∈ vs, I.Value m' v := by
  induction arguments generalizing m with
  | nil => exact .pure fun _ h => nomatch h
  | cons node nodes ih =>
      rw [List.mapM_cons]
      refine Keeps.bind (Keeps.newQuote at_ node) fun v m₁ move₁ hv => ?_
      refine Keeps.bind (ih m₁ (at_.moves move₁)) fun vs m₂ move₂ hvs => .pure fun w hw => ?_
      rcases List.mem_cons.1 hw with rfl | later
      · exact I.value_moves move₂ hv
      · exact hvs w later

/-- The body of a macro is evaluated as the body of a function is. -/
theorem Keeps.expansionBody (at_ : I.At e m) {scope : ScopeId} (inside : I.Scope m scope)
    (depth : Nat) (parameters : List Node) (body : Node) (arguments : List Node) :
    I.Keeps e m (Expansion.body depth parameters body scope arguments) I.Value := by
  refine Keeps.bind (Keeps.quotes arguments m at_) fun values m₁ move₁ hvalues => ?_
  exact Keeps.inside (at_.moves move₁) (I.scope_moves move₁ inside) (arguments_hold hvalues)
    fun inner m' at' => I.evaluate depth body inner m' at'

end Eval.Invariant

/-- Every scope that there was is as it was. -/
abbrev Store.Extends (before after : Store) : Prop := Store.Frame (fun _ => False) before after

/-- What changes nothing but a scope that is not there changes no scope that is there. -/
theorem Store.Frame.extends {s s' : Store} (h : Store.Frame (· = s.nextId) s s') :
    s.Extends s' where
  nextId_le := h.nextId_le
  scope_eq id inside _ := h.scope_eq id inside (Nat.ne_of_lt inside)

theorem Store.Grows.of_extends {s s' : Store} (h : s.Extends s') : s.Grows s' := by
  refine ⟨h.nextId_le, fun id inside => ?_, fun id inside name bound => ?_⟩
  · rw [h.scope_eq id inside not_false]
  · rwa [h.scope_eq id inside not_false]

/-- A halt stays an exit; however else an evaluation ends, that is its outcome. -/
def Expand.ended : EStateM.Result Exit Machine Value → EStateM.Result Refusal Machine Outcome
  | .ok v m => .ok (.value v) m
  | .error (.failed fault) m => .ok (.failed fault) m
  | .error (.returned v) m => .ok (.returned v) m
  | .error (.halted halt) m => .error (.halted halt) m

theorem Expand.run_outcome (c : Eval Value) (m : Machine) :
    (Expand.outcome c).run m = Expand.ended (c.run m) := by
  unfold EStateM.run Expand.outcome Eval.outcome EStateM.run
  cases c m with
  | ok v m' => rfl
  | error exit m' => cases exit <;> rfl

theorem Preserves.outcome {inv : Machine → Prop} {c : Eval Value} (h : Preserves inv c) :
    Preserves inv (Expand.outcome c) := by
  intro m hm
  have ran := h m hm
  rw [Expand.run_outcome]
  cases hc : c.run m with
  | ok v m' =>
      rw [hc] at ran
      exact ran
  | error exit m' =>
      rw [hc] at ran
      cases exit <;> exact ran

/-- The evaluation of a macro leaves all scopes that there were as they were. -/
theorem Expansion.body_extends (s : Store) (depth : Nat) (parameters : List Node) (body : Node)
    (scope : ScopeId) (arguments : List Node) :
    Preserves (fun m => s.Extends m.store)
      (Expansion.body depth parameters body scope arguments) := by
  intro m old
  have kept : Eval.Invariant.frame.Keeps m.store.nextId m
      (Expansion.body depth parameters body scope arguments) Eval.Invariant.frame.Value :=
    .expansionBody ⟨trivial, trivial⟩ trivial depth parameters body arguments
  exact old.trans kept.moves.extends

theorem Expansion.replacement_extends (s : Store) (depth : Nat) (name : Text)
    (parameters : List Node) (body : Node) (scope : ScopeId) (arguments : List Node) :
    Preserves (fun m => s.Extends m.store)
      (Expansion.replacement depth name parameters body scope arguments) := by
  unfold Expansion.replacement
  split
  · exact Preserves.throw _
  · refine Preserves.bind (Expansion.body_extends s depth _ _ _ _).outcome fun outcome => ?_
    cases outcome with
    | failed fault => exact Preserves.throw _
    | value v | returned v =>
        cases v with
        | quote serial node => exact Preserves.pure _
        | _ => exact Preserves.throw _

theorem Expansion.step_extends (s : Store) (depth : Nat) (scope : ScopeId) (node : Node) :
    Preserves (fun m => s.Extends m.store) (Expansion.step depth scope node) := by
  unfold Expansion.step
  split
  · refine Preserves.bind Preserves.get fun m => ?_
    split
    · refine Preserves.bind (Expansion.replacement_extends s depth _ _ _ _ _) fun result => ?_
      exact Preserves.bind (Preserves.modifyGet fun _ h => h) fun _ => Preserves.pure result
    · exact Preserves.pure _
  · exact Preserves.pure _

/-- An expansion leaves all scopes that there were as they were. -/
theorem expand_extends (depth : Nat) (scope : ScopeId) (node : Node) (m : Machine) :
    m.store.Extends (finalState ((expand depth scope node).run m)).store :=
  Preserves.sequential.transformM (Expansion.step_extends m.store depth scope) node m .refl

end MonkeyLang
