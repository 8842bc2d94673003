import MonkeyLang.Proofs.Evaluation.Expansion
import MonkeyLang.Session

/-!
# Sessions that can be reached

A session is reached by evaluating units of source one after the other, whatever becomes of each
of them: a unit that is refused, or that halts the machine, leaves the session in the state it has
brought it to, and the next unit starts there.

* `Session.Reached.invariant`: what holds of the first machine and is preserved by every unit holds
  of the machine of every session that can be reached.
* `Session.preserves_store`: a unit preserves what is kept by definitions of macros, where all
  scopes stay as they are, and by evaluations. `Session.grows` is a case of it.
-/

namespace MonkeyLang

namespace Session

/-- A session that some units of source lead to. -/
inductive Reached : Session → Prop
  | start (limit : Int) : Reached (start limit)
  | eval {s : Session} (source : Text) : Reached s → Reached (s.eval source).2
  | run {s : Session} (source : Text) : Reached s → Reached (s.run source).2

/-- A first unit that is not refused starts a session. -/
theorem startWith_eq_ok {limit : Int} {prelude : Text} (filled : prelude.isEmpty = false)
    (accepted : ((start limit).eval prelude).1.isOk = true) :
    startWith limit prelude = .ok ((start limit).eval prelude).2 := by
  unfold startWith
  rw [filled]
  generalize (start limit).eval prelude = r at accepted ⊢
  obtain ⟨result, s⟩ := r
  cases result with
  | error refusal => cases accepted
  | ok outcome => rfl

/-- A session with a first unit is a new one, or has evaluated that unit. -/
theorem startWith_cases {limit : Int} {prelude : Text} {s : Session}
    (started : startWith limit prelude = .ok s) :
    s = start limit ∨ s = ((start limit).eval prelude).2 := by
  unfold startWith at started
  split at started
  · cases started
    exact .inl rfl
  · split at started
    · next h =>
        cases started
        exact .inr (by rw [h])
    · cases started

/-- A session with a first unit is reached, too. -/
theorem Reached.startWith {limit : Int} {prelude : Text} {s : Session}
    (started : Session.startWith limit prelude = .ok s) : s.Reached := by
  obtain rfl | rfl := startWith_cases started
  · exact .start limit
  · exact .eval prelude (.start limit)

theorem perform_machine {α : Type} (s : Session) (c : Expand α) :
    (s.perform c).2.machine = finalState (c.run s.machine) := by
  unfold perform
  cases c.run s.machine <;> rfl

theorem perform_limit {α : Type} (s : Session) (c : Expand α) :
    (s.perform c).2.limit = s.limit := by
  unfold perform
  cases c.run s.machine <;> rfl

theorem run_machine (s : Session) (source : Text) :
    (s.run source).2.machine = finalState ((answer s.limit source).run s.machine) :=
  perform_machine s _

theorem eval_machine (s : Session) (source : Text) :
    (s.eval source).2.machine =
      finalState ((answer s.limit source).run (s.machine.remark (.evaluating source.length))) :=
  run_machine (s.remark _) source

theorem eval_limit (s : Session) (source : Text) : (s.eval source).2.limit = s.limit :=
  perform_limit (s.remark _) _

theorem limit_of_startWith {limit : Int} {prelude : Text} {s : Session}
    (started : startWith limit prelude = .ok s) : s.limit = (start limit).limit := by
  obtain rfl | rfl := startWith_cases started
  · rfl
  · exact eval_limit _ prelude

/-- Before an evaluation the scopes change where macros are bound. An expansion opens scopes beside
them. -/
theorem preserves_store_expandProgram {inv : Store → Prop}
    (define : ∀ s name serial parameters body, inv s →
      inv (s.bind macros name (.macroValue serial parameters body macros)))
    (extend : ∀ s s', s.Extends s' → inv s → inv s') (limit : Nat) (program : Node) :
    Preserves (fun m => inv m.store) (expandProgram limit program) := by
  refine Preserves.bind (Preserves.modifyGet fun m h => ?_) fun program m h =>
    extend _ _ (expand_extends limit macros program m) h
  rw [Machine.defineMacros_eq]
  dsimp only
  generalize program.statements.filterMap MacroDefinition.ofStatement? = definitions
  induction definitions generalizing m with
  | nil => exact h
  | cons d definitions ih => exact ih _ (define _ d.name _ _ _ h)

/-- The scopes change where macros are bound and in evaluations. -/
theorem preserves_store {inv : Store → Prop}
    (define : ∀ s name serial parameters body, inv s →
      inv (s.bind macros name (.macroValue serial parameters body macros)))
    (extend : ∀ s s', s.Extends s' → inv s → inv s')
    (evaluate : ∀ depth node m, inv m.store →
      inv (finalState ((MonkeyLang.evaluate depth node values).run m)).store)
    (limit : Nat) (source : Text) : Preserves (fun m => inv m.store) (answer limit source) := by
  refine Preserves.bind ?_ fun program =>
    Preserves.bind (preserves_store_expandProgram define extend limit program) fun expanded =>
      Preserves.bind ?_ fun outcome => Preserves.pure _
  · unfold read
    dsimp only
    split
    · exact Preserves.pure _
    · exact Preserves.bind (Preserves.modifyGet fun _ h => h) fun _ => Preserves.throw _
  -- A refused unit leaves the store as the evaluation has left it.
  · refine Preserves.tryCatch (Preserves.outcome fun m h => evaluate limit expanded m h) ?_
    intro refusal
    split
    · exact Preserves.bind (Preserves.modifyGet fun _ h => h) fun _ => Preserves.pure _
    · exact Preserves.throw _

/-- No unit moves a scope or takes a name out of one. -/
theorem grows (before : Store) (limit : Nat) (source : Text) :
    Preserves (fun m => before.Grows m.store) (answer limit source) :=
  preserves_store (fun s name _ _ _ h => h.trans (.bind s macros name _))
    (fun _ _ extends_ h => h.trans (.of_extends extends_))
    (fun depth node m h => h.trans (evaluate_grows depth node values m)) limit source

theorem Reached.invariant (inv : Machine → Prop) (first : inv machine₀)
    (remark : ∀ m r, inv m → inv (m.remark r))
    (unit : ∀ limit source, Preserves inv (answer limit source)) {s : Session} (h : s.Reached) :
    inv s.machine := by
  induction h with
  | start limit => exact first
  | eval source _ ih =>
      rw [eval_machine]
      exact unit _ source _ (remark _ _ ih)
  | run source _ ih =>
      rw [run_machine]
      exact unit _ source _ ih

end Session

end MonkeyLang
