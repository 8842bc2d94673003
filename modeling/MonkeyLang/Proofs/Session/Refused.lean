import MonkeyLang.Proofs.Session.Dispatch
import MonkeyLang.Proofs.Session.Values

/-!
# Refused units

A unit is refused when its text has mistakes, or when a call of a macro in it cannot be replaced. In
the first case nothing has been done but a remark in the log. In the second case the macros that
the unit defines are defined already, and stay so; nothing else is bound or changed.

* `Session.transcript` is what is seen of a series of units.
* `refused_unit_leaves_bindings` is the result, `refused_unit_defines_macro` an example of a macro
  that a refused unit leaves behind.
-/

namespace MonkeyLang

open Grammar
open Session (values macros)

/-- The macros that a unit of source defines. -/
def Session.definitions (source : Text) : List MacroDefinition :=
  (parse source).program.statements.filterMap MacroDefinition.ofStatement?

/-! ## The output of a unit -/

/-- The terms of a comparison in all that is put out from here on. -/
def Eval.Terms.sinceThen (before before' : Array Event) : Eval.Terms :=
  .ofEvents (fun events events' => ∃ new, events = before ++ new ∧ events' = before' ++ new) <| by
    rintro a b event ⟨new, rfl, rfl⟩
    exact ⟨new.push event, by simp, by simp⟩

namespace Session

open Eval (Terms)

/-- What is seen of some units of source that are evaluated one after the other: the result and the
output of each of them. -/
def transcript (s : Session) : List Text → List (Except Refusal Outcome × List Event)
  | [] => []
  | source :: sources =>
    let (result, s') := s.eval source
    (result, s'.machine.events.toList.drop s.machine.events.size) :: s'.transcript sources

/-- The sessions are the same but for what has been put out before: since then, it is the same,
too. -/
def SameSince (before before' : Array Event) (s t : Session) : Prop :=
  t.limit = s.limit ∧ ∃ new, s.machine.events = before ++ new ∧
    t.machine = { s.machine with events := before' ++ new }

namespace SameSince

variable {before before' : Array Event} {s t : Session} {roles : Roles}

theorem remark (h : SameSince before before' s t) (r : Remark) :
    SameSince before before' (s.remark r) (t.remark r) := by
  obtain ⟨limit, new, out, same⟩ := h
  refine ⟨limit, new.push (.remarked r), ?_, ?_⟩
  · simp [Session.remark, Machine.remark, Machine.emit, out]
  · simp [Session.remark, Machine.remark, Machine.emit, same]

theorem run (h : SameSince before before' s t) (proper : s.machine.Proper roles)
    (source : Text) :
    (t.run source).1 = (s.run source).1 ∧
      SameSince before before' (s.run source).2 (t.run source).2 ∧
        ∃ roles', (s.run source).2.machine.Proper roles' := by
  obtain ⟨limit, new, out, same⟩ := h
  let T := Terms.sinceThen before before'
  have agree (depth : Nat) (e : ScopeId) : T.Agree (evaluate depth · e) (evaluate depth · e) :=
    T.agree_evaluate (fun _ => trivial) (Evaluator.evaluate_keepsTo fun _ _ _ => True)
      (fun _ _ => trivial) depth e
  have beside : (T.units source).Beside s.machine t.machine := ⟨_, ⟨new, out, rfl⟩, same⟩
  obtain ⟨result, ⟨_, ⟨new', out', rfl⟩, same'⟩, roles', proper', -⟩ :=
    perform_alike (T.answer_alike agree s.limit) proper beside
  unfold Session.run
  rw [limit]
  refine ⟨result, ⟨?_, new', out', same'⟩, roles', proper'⟩
  rw [perform_eq t, perform_eq s]
  exact limit

theorem eval (h : SameSince before before' s t) (proper : s.machine.Proper roles)
    (source : Text) :
    (t.eval source).1 = (s.eval source).1 ∧
      SameSince before before' (s.eval source).2 (t.eval source).2 ∧
        ∃ roles', (s.eval source).2.machine.Proper roles' := by
  obtain ⟨result, after⟩ :=
    (h.remark (.evaluating source.length)).run (proper.remark _) source
  exact ⟨congrArg (·.map Answer.outcome) result, after⟩

end SameSince

/-- What has been put out before does not matter to what is seen of later units. -/
theorem transcript_eq {s t : Session} {roles : Roles} (proper : s.machine.Proper roles)
    (limit : t.limit = s.limit) {events : Array Event}
    (same : t.machine = { s.machine with events := events }) (sources : List Text) :
    t.transcript sources = s.transcript sources := by
  induction sources generalizing s t roles events with
  | nil => rfl
  | cons source sources ih =>
      have since : SameSince s.machine.events t.machine.events s t :=
        ⟨limit, #[], by simp, by simp [same]⟩
      obtain ⟨result, ⟨limit', new, out, same'⟩, roles', proper'⟩ := since.eval proper source
      unfold transcript
      dsimp only
      rw [result, ih proper' limit' same', out, same']
      simp

/-! ## Refusals -/

/-- A unit whose text has mistakes is refused before anything else is done. -/
theorem run_answer_of_mistakes {source : Text} (mistaken : (parse source).diagnostics ≠ [])
    (limit : Nat) (m : Machine) :
    (answer limit source).run m = .error (.mistakes (parse source).diagnostics)
      (m.remark (.mistakes (parse source).diagnostics.length)) := by
  unfold answer
  rw [EStateM.run_bind, run_read, if_neg mistaken]

theorem run_evaluateProgram_ne_expansion (limit : Nat) (program : Node) (m m' : Machine)
    (fault : ExpansionFault) :
    (evaluateProgram limit program).run m ≠ .error (.expansion fault) m' := by
  unfold evaluateProgram
  rw [run_tryCatch, Expand.run_outcome]
  cases (MonkeyLang.evaluate limit program values).run m with
  | ok v m₁ => exact nofun
  | error exit m₁ =>
      cases exit with
      | halted halt => cases halt <;> exact nofun
      | _ => exact nofun

/-- A unit that is refused for a call of a macro has its own macros defined, and nothing else has
been done but to expand it. -/
theorem run_answer_of_expansion {limit : Nat} {source : Text} {m m' : Machine}
    {fault : ExpansionFault}
    (refused : (answer limit source).run m = .error (.expansion fault) m') :
    ∃ left, (expand limit macros left).run (m.defineMacros macros (parse source).program).2 =
      .error (.expansion fault) m' := by
  -- Reading refuses for mistakes only, and evaluation for nothing but halts.
  unfold answer at refused
  rw [EStateM.run_bind, run_read] at refused
  split at refused
  · next accepted =>
    split at accepted
    · cases accepted
      refine ⟨(m.defineMacros macros (parse source).program).1, ?_⟩
      have run_eq : (expandProgram limit (parse source).program).run m =
          (expand limit macros (m.defineMacros macros (parse source).program).1).run
            (m.defineMacros macros (parse source).program).2 := rfl
      rw [EStateM.run_bind, run_eq] at refused
      split at refused
      · rw [EStateM.run_bind] at refused
        split at refused
        · cases refused
        · next ended =>
          cases refused
          exact absurd ended (run_evaluateProgram_ne_expansion _ _ _ _ _)
      · next ended =>
        cases refused
        exact ended
    · cases accepted
  · next unaccepted =>
    split at unaccepted
    · cases unaccepted
    · cases unaccepted
      cases refused

/-- A refusal for mistakes is one for the mistakes in the text. -/
theorem run_mistakes {s : Session} {roles : Roles} (proper : s.machine.Proper roles)
    {source : Text} {diagnostics : List Diagnostic}
    (refused : (s.run source).1 = .error (.mistakes diagnostics)) :
    (s.run source).2 = s.remark (.mistakes diagnostics.length) := by
  obtain ⟨-, -, _, -, ended⟩ := perform_alike (s := s) (t := s)
    (answer_exact (Evaluator.evaluate_keepsTo _) roles s.limit source) proper ⟨_, rfl, rfl⟩
  have refused' : (s.perform (answerBy evaluate s.limit source)).1 = .error (.mistakes diagnostics) :=
    refused
  rw [refused'] at ended
  obtain ⟨rfl, mistaken⟩ := ended
  unfold run perform
  rw [run_answer_of_mistakes mistaken]
  rfl

/-- Definitions of macros bind their names in the scope of macros and nothing else. -/
theorem defineMacros_frame (m : Machine) (definitions : List MacroDefinition) :
    let after := (definitions.foldl (·.defineMacro macros ·) m).store
    Store.Frame (· = macros) m.store after ∧
      ∀ name, (∀ d ∈ definitions, d.name ≠ name) →
        (after.scope macros).bindings.get? name = (m.store.scope macros).bindings.get? name := by
  induction definitions generalizing m with
  | nil => exact ⟨.refl, fun _ _ => rfl⟩
  | cons d definitions ih =>
      obtain ⟨frame, kept⟩ := ih (m.defineMacro macros d)
      refine ⟨Store.Frame.trans (.bind rfl) frame, fun name others => ?_⟩
      have bound : (m.defineMacro macros d).store =
          m.store.bind macros d.name (.macroValue m.nextSerial d.parameters d.body macros) := rfl
      rw [List.foldl_cons, kept name fun d mem => others d (.tail _ mem), bound, Store.scope_bind]
      split
      · next same =>
        rw [same.1, Assoc.get?_insert, if_neg (others d (.head _))]
      · rfl

/-- What a refusal leaves of the bindings of a session, and of what later units come to. Mistakes
leave all of it. A failed expansion leaves all scopes but that of macros, and there all names but
those of the macros that the unit defines; if it defines none, it leaves all scopes. -/
def LeavesBindings (s : Session) (source : Text) (result : Except Refusal Outcome)
    (s' : Session) : Prop :=
  match result with
  | .error (.mistakes _) =>
    s'.machine.store = s.machine.store ∧ ∀ sources, s'.transcript sources = s.transcript sources
  | .error (.expansion _) =>
    Store.Frame (· = macros) s.machine.store s'.machine.store ∧
      (∀ name, (∀ d ∈ definitions source, d.name ≠ name) →
        (s'.machine.store.scope macros).bindings.get? name =
          (s.machine.store.scope macros).bindings.get? name) ∧
      (definitions source = [] → s.machine.store.Extends s'.machine.store)
  | _ => True

/-- An expansion that fails leaves the scopes as the definitions of the unit have made them. -/
theorem leavesBindings_expansion {limit : Nat} {source : Text} {m m' : Machine}
    (inside : macros < m.store.nextId) {fault : ExpansionFault}
    (refused : (answer limit source).run m = .error (.expansion fault) m') :
    Store.Frame (· = macros) m.store m'.store ∧
      (∀ name, (∀ d ∈ definitions source, d.name ≠ name) →
        (m'.store.scope macros).bindings.get? name = (m.store.scope macros).bindings.get? name) ∧
      (definitions source = [] → m.store.Extends m'.store) := by
  obtain ⟨left, expanding⟩ := run_answer_of_expansion refused
  obtain ⟨frame, kept⟩ := defineMacros_frame m (definitions source)
  have extends_ := expand_extends limit macros left
    (m.defineMacros macros (parse source).program).2
  rw [expanding, Machine.defineMacros_eq] at extends_
  change Store.Extends ((definitions source).foldl (·.defineMacro macros ·) m).store
    m'.store at extends_
  refine ⟨frame.trans ⟨extends_.nextId_le, fun id old _ => extends_.scope_eq id old not_false⟩,
    fun name others => ?_, fun none => ?_⟩
  · have inside' := Nat.lt_of_lt_of_le inside frame.nextId_le
    rw [extends_.scope_eq macros inside' not_false, kept name others]
  · rwa [none] at extends_

theorem run_leavesBindings {s : Session} {roles : Roles} (proper : s.machine.Proper roles)
    (divided : s.machine.store.Divided) (source : Text) :
    s.LeavesBindings source ((s.run source).1.map Answer.outcome) (s.run source).2 := by
  cases result : (s.run source).1 with
  | ok answer => trivial
  | error refusal =>
      cases refusal with
      | mistakes diagnostics =>
          have after := run_mistakes proper result
          refine ⟨by rw [after]; rfl, fun sources => ?_⟩
          rw [after]
          exact transcript_eq (t := s.remark _) proper rfl rfl sources
      | expansion fault =>
          have machine := run_machine s source
          unfold run perform at result
          cases ran : (answer s.limit source).run s.machine with
          | ok answer m' =>
              rw [ran] at result
              cases result
          | error refusal m' =>
              rw [ran] at result machine
              cases result
              have left := leavesBindings_expansion divided.roots ran
              rw [← show (s.run source).2.machine = m' from machine] at left
              exact left
      | halted halt => trivial

/-- A remark before the unit makes no difference. -/
theorem LeavesBindings.of_remark {s s' : Session} {roles : Roles} (proper : s.machine.Proper roles)
    {r : Remark} {source : Text} {result : Except Refusal Outcome}
    (h : (s.remark r).LeavesBindings source result s') : s.LeavesBindings source result s' := by
  unfold LeavesBindings at h ⊢
  split
  · refine ⟨h.1, fun sources => (h.2 sources).trans ?_⟩
    exact transcript_eq (t := s.remark r) proper rfl rfl sources
  · exact h
  · trivial

end Session

/-- In every session, a unit that is refused for mistakes leaves all bindings as they were, and all
later units come to the same as if it had not been there. A unit that is refused because a call of
a macro in it cannot be replaced leaves the values as they were, and so it leaves all macros but
those that it defines itself. -/
theorem refused_unit_leaves_bindings (s : Session) (reached : s.Reached) (source : Text) :
    s.LeavesBindings source ((s.run source).1.map Answer.outcome) (s.run source).2 ∧
      s.LeavesBindings source (s.eval source).1 (s.eval source).2 := by
  obtain ⟨roles, proper⟩ := reached.proper
  have divided : s.machine.store.Divided :=
    reached.invariant (fun m => m.store.Divided) Session.divided_machine₀ (fun _ _ h => h)
      Session.divided
  refine ⟨Session.run_leavesBindings proper divided source, ?_⟩
  let remarked := s.remark (.evaluating source.length)
  have left : remarked.LeavesBindings source (s.eval source).1 (s.eval source).2 :=
    Session.run_leavesBindings (s := remarked) (proper.remark _) divided source
  exact left.of_remark proper

/-- A text with a mistake and a call of a macro with too few arguments are refused: the first leaves
all as it was, the second all scopes but that of macros. -/
theorem refused_unit_leaves_bindings_call :
    let s := Session.start 0
    let source := "let m = macro(x) \x7b x \x7d; m()"
    s.Reached ∧
      (s.run "let y =").1 = .error (.mistakes (parse "let y =").diagnostics) ∧
        (s.run "let y =").2.transcript ["y"] = s.transcript ["y"] ∧
          (s.run source).1 = .error (.expansion (.arity "m" 1 0)) ∧
            Store.Frame (· = macros) s.machine.store (s.run source).2.machine.store := by
  intro s source
  have reached : s.Reached := .start 0
  have mistaken : (s.run "let y =").1 = .error (.mistakes (parse "let y =").diagnostics) := by
    cbv
  have failed : (s.run source).1 = .error (.expansion (.arity "m" 1 0)) := by cbv
  have first := (refused_unit_leaves_bindings s reached "let y =").1
  have second := (refused_unit_leaves_bindings s reached source).1
  rw [mistaken] at first
  rw [failed] at second
  exact ⟨reached, mistaken, first.2 _, failed, second.1⟩

/-- But the macros that such a unit defines stay defined, so that later units see them. -/
theorem refused_unit_defines_macro :
    let source := "let m = macro() \x7b 1 \x7d; m()"
    let s := Session.start 0
    (s.run source).1 = .error (.expansion (.notQuoted "m" .integer)) ∧
      (s.macro? "m").isSome = false ∧ ((s.run source).2.macro? "m").isSome = true ∧
        (s.run "m()").1.isOk = true ∧ ((s.run source).2.run "m()").1.isOk = false := by
  refine ⟨by cbv, by decide +kernel, by decide +kernel, by decide +kernel, by decide +kernel⟩

end MonkeyLang
