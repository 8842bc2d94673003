import MonkeyLang.Proofs.Session.Supervised

/-!
# Sessions evaluate proper trees only

Trees with holes come up while a text with mistakes is parsed, but the text is refused then. From a
text without mistakes come proper trees, and whatever programs and macros make of them, by
quotation and unquotation too, is proper again. So no evaluation in a session meets a hole.

* `Session.Reached.proper`: on the machine of a session all program is proper.
* `session_evaluates_proper_trees` is the result.
-/

namespace MonkeyLang

open Grammar

/-- The machine is proper, and the tree to be evaluated is a proper one on it. -/
def Evaluator.Case.proper : Evaluator.Case :=
  fun m node _ => ∃ roles category, m.Proper roles ∧ node.Proper roles category

/-- The terms of a comparison in all points. -/
def Eval.Terms.exact : Eval.Terms := .ofEvents Eq Eval.Terms.push_eq

namespace Session

open Eval (Terms)

/-- With an evaluator that keeps to the forms for proper trees, a unit comes to the same. -/
theorem answer_exact {ev : Evaluator} (keeps : ev.KeepsTo .proper) (roles : Roles) (limit : Nat)
    (source : Text) :
    (Terms.exact.units source).Alike roles (answerBy evaluate limit source) (answerBy ev limit source)
      fun roles' answer => Terms.exact.Ended roles' answer.outcome := by
  refine Terms.exact.answer_alike (fun depth e => ?_) limit
  exact Terms.exact.agree_evaluate (fun _ => trivial) keeps
    (fun machine node => ⟨_, _, machine, node⟩) depth e

theorem proper_machine₀ : machine₀.Proper Roles.none where
  bound {id name v} bound := by
    match id with
    | 0 | 1 | _ + 2 => cases bound
  inside role := nomatch role
  held role := nomatch role

/-- All program that a session holds is proper. -/
theorem Reached.proper {s : Session} (h : s.Reached) : ∃ roles, s.machine.Proper roles := by
  refine h.invariant (fun m => ∃ roles, m.Proper roles) ⟨_, proper_machine₀⟩ ?_ ?_
  · rintro m r ⟨roles, proper⟩
    exact ⟨roles, proper.remark r⟩
  · rintro limit source m ⟨roles, proper⟩
    have alike := answer_exact (Evaluator.evaluate_keepsTo _) roles limit source
    obtain ⟨-, -, roles', proper', -⟩ :=
      perform_alike (s := ⟨m, limit⟩) (t := ⟨m, limit⟩) alike proper ⟨_, rfl, rfl⟩
    exact ⟨roles', perform_machine ⟨m, limit⟩ _ ▸ proper'⟩

/-- The unit ends with the fault of a hole that was evaluated, or a macro fails with it. -/
def MeetsHole : Except Refusal Outcome → Prop
  | .ok outcome => outcome = .failed .missingNode
  | .error refusal => ∃ name, refusal = .expansion (.failed name .missingNode)

theorem run_exact {s : Session} {roles : Roles} (proper : s.machine.Proper roles) {ev : Evaluator}
    (keeps : ev.KeepsTo .proper) (source : Text) :
    s.runBy ev source = s.run source ∧ ¬ MeetsHole ((s.run source).1.map Answer.outcome) := by
  obtain ⟨same, ⟨_, rfl, beside⟩, roles', -, ended⟩ :=
    perform_alike (s := s) (t := s) (answer_exact keeps roles s.limit source) proper ⟨_, rfl, rfl⟩
  refine ⟨?_, ?_⟩
  · unfold runBy
    rw [perform_eq, same, beside]
    exact (perform_eq s _).symm
  · rw [← runBy_evaluate]
    unfold runBy
    cases result : (s.perform (answerBy evaluate s.limit source)).1 with
    | ok answer =>
        rw [result] at ended
        intro (hole : answer.outcome = .failed .missingNode)
        dsimp only at ended
        rw [hole] at ended
        exact ended rfl
    | error refusal =>
        rw [result] at ended
        rintro ⟨name, rfl⟩
        exact ended name rfl

theorem eval_exact {s : Session} {roles : Roles} (proper : s.machine.Proper roles) {ev : Evaluator}
    (keeps : ev.KeepsTo .proper) (source : Text) :
    s.evalBy ev source = s.eval source ∧ ¬ MeetsHole (s.eval source).1 := by
  obtain ⟨same, noHole⟩ := run_exact (s := s.remark _) (proper.remark _) keeps source
  refine ⟨?_, noHole⟩
  unfold evalBy eval
  rw [same]

end Session

/-- In every session all program on the machine is proper, so every evaluation in a unit of source,
in the program, in the bodies of functions and macros and inside quotations, is one of a proper
tree on a proper machine. No unit ends with the fault of a hole that was evaluated, and no macro
fails with it; but the evaluation of a hole would. -/
theorem session_evaluates_proper_trees :
    (∀ s : Session, s.Reached →
      (∃ roles, s.machine.Proper roles) ∧
        ∀ source, s.EvaluatesOnly source .proper ∧
          ¬ Session.MeetsHole ((s.run source).1.map Answer.outcome) ∧
            ¬ Session.MeetsHole (s.eval source).1) ∧
    ∀ (depth : Nat) (e : ScopeId) (m : Machine),
      ((evaluate (depth + 1) .missing e).outcome m).1 = .ok (.failed .missingNode) := by
  refine ⟨fun s reached => ?_, fun _ _ _ => rfl⟩
  obtain ⟨roles, proper⟩ := reached.proper
  refine ⟨⟨roles, proper⟩, fun source => ⟨fun ev keeps => ?_, ?_, ?_⟩⟩
  · exact ⟨(Session.run_exact proper keeps source).1, (Session.eval_exact proper keeps source).1⟩
  · exact (Session.run_exact proper (Evaluator.evaluate_keepsTo _) source).2
  · exact (Session.eval_exact proper (Evaluator.evaluate_keepsTo _) source).2

/-- A session with a macro, and a unit that has its argument spliced into a quotation. -/
theorem session_with_macro_evaluates_proper_trees :
    let s := ((Session.start 0).run "let m = macro(x) \x7b quote(unquote(x) + 1) \x7d;").2
    s.Reached ∧ (s.macro? "m").isSome = true ∧
      s.EvaluatesOnly "m(fn(y) \x7b y \x7d(2))" .proper ∧
        ¬ Session.MeetsHole (s.eval "m(fn(y) \x7b y \x7d(2))").1 := by
  intro s
  have reached : s.Reached := .run _ (.start 0)
  obtain ⟨only, -, noHole⟩ := (session_evaluates_proper_trees.1 s reached).2 "m(fn(y) \x7b y \x7d(2))"
  exact ⟨reached, by decide +kernel, only, noHole⟩

end MonkeyLang
