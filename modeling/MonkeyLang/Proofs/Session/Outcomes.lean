import MonkeyLang.Proofs.Session.Dispatch
import MonkeyLang.Proofs.Session.Values

/-!
# What units come to

A unit that is not refused has been read without mistakes, its macros have been defined and the calls
of macros in it replaced, and what is left has been evaluated in the outermost scope of values. So it
comes to an ordinary value or to a fault, and whether it counts as silent can be read off its text.

* `Session.exists_of_run_answer` takes such a unit apart.
* `Session.Reached.run_ok` says what a unit comes to that is not refused.
-/

namespace MonkeyLang

open Session (values macros)

namespace Session

variable {limit : Nat} {source : Text} {m m' : Machine}

/-- A unit that is not refused has been read, expanded and evaluated. -/
theorem exists_of_run_answer {answer : Answer}
    (ran : (Session.answer limit source).run m = .ok answer m') :
    (parse source).diagnostics = [] ∧ answer.silent = endsWithLet (parse source).program ∧
      ∃ expanded m₁, (expandProgram limit (parse source).program).run m = .ok expanded m₁ ∧
        (evaluateProgram limit expanded).run m₁ = .ok answer.outcome m' := by
  unfold Session.answer at ran
  obtain ⟨program, m₀, read, ran⟩ := exists_of_run_bind ran
  obtain ⟨expanded, m₁, expands, ran⟩ := exists_of_run_bind ran
  obtain ⟨outcome, m₂, evaluates, ran⟩ := exists_of_run_bind ran
  cases ran
  rw [run_read] at read
  split at read
  · next accepted =>
    cases read
    exact ⟨accepted, rfl, expanded, m₁, expands, evaluates⟩
  · cases read

/-- The evaluation of a program ends with its outcome, or with a fault where it would not end. -/
theorem evaluateProgram_cases {expanded : Node} {outcome : Outcome}
    (ran : (evaluateProgram limit expanded).run m = .ok outcome m') :
    outcome = .failed .stackOverflow ∨
      (evaluate limit expanded values).outcome m = (.ok outcome, m') := by
  unfold evaluateProgram at ran
  rw [run_tryCatch, Expand.run_outcome] at ran
  rw [outcome_eq]
  cases ended : (evaluate limit expanded values).run m with
  | ok v m₁ =>
      rw [ended] at ran
      cases ran
      exact .inr rfl
  | error exit m₁ =>
      rw [ended] at ran
      cases exit with
      | failed fault | returned v =>
          cases ran
          exact .inr rfl
      | halted halt =>
          cases halt <;> cases ran
          exact .inl rfl

/-- Where values and macros are apart, a unit comes to a fault or to an ordinary value. -/
theorem onlyOrdinary_of_run_answer {answer : Answer} (divided : m.store.Divided)
    (ran : (Session.answer limit source).run m = .ok answer m') :
    answer.outcome.OnlyOrdinary m'.store := by
  obtain ⟨-, -, expanded, m₁, expands, evaluates⟩ := exists_of_run_answer ran
  have divided₁ : m₁.store.Divided := by
    have keeps : Preserves (fun m => m.store.Divided) (expandProgram limit (parse source).program) :=
      preserves_store_expandProgram (fun _ name _ _ _ h => h.bindMacro name ⟨_, _, _, rfl⟩)
        (fun _ _ extends_ h => h.extend extends_) limit _
    have kept := keeps m divided
    rwa [expands] at kept
  rcases evaluateProgram_cases evaluates with tooDeep | ended
  · rw [tooDeep]
    exact trivial
  · have ordinary := evaluate_onlyOrdinary limit expanded values m₁ divided₁.onlyOrdinary
    rw [ended] at ordinary
    exact ordinary.2 _ rfl

theorem Reached.divided {s : Session} (reached : s.Reached) : s.machine.store.Divided :=
  reached.invariant (fun m => m.store.Divided) Session.divided_machine₀ (fun _ _ h => h)
    Session.divided

/-- A result is the one of a run on the machine of the session. -/
theorem run_eq_ok_iff {s : Session} {answer : Answer} :
    (s.run source).1 = .ok answer ↔
      ∃ m, (Session.answer s.limit source).run s.machine = .ok answer m ∧
        (s.run source).2 = { s with machine := m } := by
  unfold run perform
  cases (Session.answer s.limit source).run s.machine with
  | ok a m => simp
  | error refusal m => simp

/-- A unit that is not refused has no mistakes in its text, is silent if this ends with a let statement,
and comes to an error only by a fault. -/
theorem Reached.run_ok {s : Session} (reached : s.Reached) {answer : Answer}
    (ran : (s.run source).1 = .ok answer) :
    (parse source).diagnostics = [] ∧ answer.silent = endsWithLet (parse source).program ∧
      (answer.outcome.isError = true ↔ ∃ fault, answer.outcome = .failed fault) := by
  obtain ⟨m, ran, -⟩ := run_eq_ok_iff.1 ran
  obtain ⟨accepted, silent, -⟩ := exists_of_run_answer ran
  have ordinary := onlyOrdinary_of_run_answer reached.divided ran
  refine ⟨accepted, silent, fun error => ?_, ?_⟩
  · cases outcome : answer.outcome with
    | failed fault => exact ⟨fault, rfl⟩
    | returned v =>
        rw [outcome] at error
        cases error
    | value v =>
        rw [outcome] at error ordinary
        have plain := ordinary v .refl
        cases v with
        | error fault => cases plain
        | _ => cases error
  · rintro ⟨fault, outcome⟩
    rw [outcome]
    rfl

end Session

end MonkeyLang
