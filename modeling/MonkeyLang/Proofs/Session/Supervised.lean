import MonkeyLang.Proofs.Evaluation.Evaluators
import MonkeyLang.Proofs.Evaluation.Expansion
import MonkeyLang.Proofs.Parser.Soundness
import MonkeyLang.Proofs.Session.Reached

/-!
# Sessions with another evaluator

A unit of source evaluates trees when it expands macros and when the expanded program is evaluated.
What a unit does with another evaluator in the place of `evaluate` shows which trees these are.

* `Session.answerBy` and `Session.runBy` are `Session.answer` and `Session.run` with another
  evaluator.
* `Session.EvaluatesOnly` says which cases of evaluation come up in a unit.
* `Eval.Terms.answer_alike` compares a unit with two evaluators that agree on proper trees.
-/

namespace MonkeyLang

open Grammar
open Session (values macros machine₀)

/-! ## Units by an evaluator -/

section

variable (ev : Evaluator)

/-- The value of the body of a macro. -/
def Expansion.bodyBy (depth : Nat) (parameters : List Node) (body : Node) (scope : ScopeId)
    (arguments : List Node) : Eval Value := do
  let values ← arguments.mapM Eval.newQuote
  let inner ← Eval.newScope scope (Eval.arguments parameters values)
  ev depth body inner

/-- The node that a macro puts in the place of a call. -/
def Expansion.replacementBy (depth : Nat) (name : Text) (parameters : List Node) (body : Node)
    (scope : ScopeId) (arguments : List Node) : Expand Node := do
  if parameters.length ≠ arguments.length then
    fail (.arity name parameters.length arguments.length)
  else
    match ← Expand.outcome (bodyBy ev depth parameters body scope arguments) with
    | .failed fault => fail (.failed name fault)
    | .value v | .returned v =>
      match v with
      | .quote _ node => return node
      | .error fault => fail (.failed name fault)
      | v => fail (.notQuoted name v.kind)

/-- Replace a call of a macro that is bound in a scope. -/
def Expansion.stepBy (depth : Nat) (scope : ScopeId) (node : Node) : Expand Node := do
  match node with
  | .call t (.ident u name) arguments =>
    match (← get).store.lookup scope name with
    | some (.macroValue _ parameters body inner) =>
      let result ← replacementBy ev depth name parameters body inner arguments
      modify fun m => m.remark (.expanded (m.pieces.shown (.call t (.ident u name) arguments))
        (m.pieces.shown result))
      return result
    | _ => return .call t (.ident u name) arguments
  | node => return node

namespace Session

/-- Define the macros of a program and replace the calls of macros in it. -/
def expandProgramBy (limit : Nat) (program : Node) : Expand Node := do
  let program ← modifyGet (·.defineMacros macros program)
  program.transformM (Expansion.stepBy ev limit macros)

/-- Evaluate an expanded program. -/
def evaluateProgramBy (limit : Nat) (program : Node) : Expand Outcome :=
  tryCatch (Expand.outcome (ev limit program values)) fun
    | .halted .overflow => do
      modify (·.remark (.tooDeep limit))
      return .failed .stackOverflow
    | refusal => throw refusal

/-- What a unit of source comes to. -/
def answerBy (limit : Nat) (source : Text) : Expand Answer := do
  let program ← read source
  let expanded ← expandProgramBy ev limit program
  let outcome ← evaluateProgramBy ev limit expanded
  return ⟨outcome, endsWithLet program⟩

/-- Evaluate a unit of source. -/
def runBy (s : Session) (source : Text) : Except Refusal Answer × Session :=
  s.perform (answerBy ev s.limit source)

/-- Evaluate a unit of source, with a remark in the log. -/
def evalBy (s : Session) (source : Text) : Except Refusal Outcome × Session :=
  let (result, s) := (s.remark (.evaluating source.length)).runBy ev source
  (result.map Answer.outcome, s)

theorem runBy_evaluate (s : Session) : s.runBy evaluate = s.run := rfl

end Session

end

/-- None but these cases of evaluation come up in a unit: whatever an evaluator does in all others,
the unit comes to the same. -/
def Session.EvaluatesOnly (s : Session) (source : Text) (case : Evaluator.Case) : Prop :=
  ∀ ev : Evaluator, ev.KeepsTo case →
    s.runBy ev source = s.run source ∧ s.evalBy ev source = s.eval source

/-! ## Definitions of macros -/

/-- The parameters and the body of the macro are proper. -/
def MacroDefinition.Proper (roles : Roles) (d : MacroDefinition) : Prop :=
  (∀ p ∈ d.parameters, p.Proper roles .parameter) ∧ d.body.Proper roles .block

theorem Node.Proper.statements {roles : Roles} {program : Node}
    (h : program.Proper roles .program) : ∀ s ∈ program.statements, s.Proper roles .statement := by
  cases h with
  | program each => exact each
  | piece => exact fun _ none => nomatch none

theorem MacroDefinition.proper_of_ofStatement? {roles : Roles} {category : Category} {s : Node}
    {d : MacroDefinition} (proper : s.Proper roles category) (h : ofStatement? s = some d) :
    d.Proper roles := by
  unfold ofStatement? at h
  split at h
  · cases h
    cases proper with
    | letStmt value =>
      cases value with
      | macroLit parameters body => exact ⟨parameters, body⟩
  · cases h

theorem Machine.Proper.defineMacros {roles : Roles} {m : Machine} (h : m.Proper roles)
    (scope : ScopeId) {definitions : List MacroDefinition}
    (each : ∀ d ∈ definitions, d.Proper roles) :
    (definitions.foldl (·.defineMacro scope ·) m).Proper roles := by
  induction definitions generalizing m with
  | nil => exact h
  | cons d definitions ih =>
      have ⟨parameters, body⟩ := each d (.head _)
      have counted : ({ m with nextSerial := m.nextSerial + 1 } : Machine).Proper roles :=
        h.of_eq rfl rfl
      have value : (Value.macroValue m.nextSerial d.parameters d.body scope).Proper roles :=
        .macroValue parameters body
      have bound : (Machine.bind { m with nextSerial := m.nextSerial + 1 } scope d.name _).Proper
          roles := counted.bind value
      exact ih (bound.of_eq rfl rfl) fun d mem => each d (.tail _ mem)

/-! ## Units side by side -/

namespace Eval.Terms

variable (T : Eval.Terms) {roles : Roles} {ev ev' : Evaluator} {depth : Nat}

/-- What evaluations end in, if trees and machine are proper. -/
def Ended (roles : Roles) : Outcome → Prop
  | .value v | .returned v => v.Proper roles ∧ T.Fine v
  | .failed fault => fault ≠ .missingNode

/-- The mistakes are those of the text, and no macro fails for a hole in a tree. -/
def Refuses (source : Text) : Refusal → Prop
  | .mistakes diagnostics => diagnostics = (parse source).diagnostics ∧ diagnostics ≠ []
  | .expansion fault => ∀ name, fault ≠ .failed name .missingNode
  | .halted halt => T.Halts halt

/-- The comparison of units with a text. -/
def units (source : Text) : Comparison Refusal := ⟨T.Events, T.emit, fun _ => T.Refuses source⟩

variable {source : Text}

theorem outcome_alike {c c' : Eval Value}
    (h : T.Alike roles c c' fun roles' v => v.Proper roles' ∧ T.Fine v) :
    (T.units source).Alike roles (Expand.outcome c) (Expand.outcome c') T.Ended := by
  intro m m' before beside
  have ended := h m m' before beside
  rw [Expand.run_outcome, Expand.run_outcome]
  generalize c.run m = r, c'.run m' = r' at ended ⊢
  cases ended with
  | ok more proper beside holds => exact .ok more proper beside holds
  | @error _ exit _ _ more proper beside exits =>
      cases exit with
      | failed fault => exact .ok more proper beside exits
      | returned v => exact .ok more proper beside exits
      | halted halt => exact .error more proper beside exits

theorem remark_alike {remark : Machine → Remark}
    (same : ∀ m events, remark { m with events := events } = remark m) :
    (T.units source).Alike roles (modify fun m => m.remark (remark m))
      (modify fun m => m.remark (remark m)) fun _ _ => True := by
  refine .modifyGet (fun m proper => ⟨roles, .refl, proper.of_eq rfl rfl, trivial⟩) ?_
  rintro m _ ⟨events, compared, rfl⟩
  refine ⟨rfl, events.push (.remarked (remark m)), T.emit _ compared, ?_⟩
  dsimp only
  rw [same]
  rfl

/-! ### Expansion -/

theorem beside_defineMacros (scope : ScopeId) (definitions : List MacroDefinition)
    {m m' : Machine} (beside : (T.units source).Beside m m') :
    (T.units source).Beside (definitions.foldl (·.defineMacro scope ·) m)
      (definitions.foldl (·.defineMacro scope ·) m') := by
  induction definitions generalizing m m' with
  | nil => exact beside
  | cons d definitions ih =>
      obtain ⟨events, compared, rfl⟩ := beside
      exact ih ⟨events.push _, T.emit _ compared, rfl⟩

theorem newQuotes_alike {nodes : List Node} (proper : ∀ n ∈ nodes, n.Proper roles .expression) :
    T.Alike roles (nodes.mapM newQuote) (nodes.mapM newQuote) fun roles' vs =>
      ∀ v ∈ vs, v.Proper roles' := by
  induction nodes generalizing roles with
  | nil => exact .pure fun _ none => nomatch none
  | cons n others ih =>
      rw [List.mapM_cons]
      refine (T.newQuote_alike (proper n (.head _))).bind fun roles₁ v more₁ first => ?_
      refine (ih fun w mem => (proper w (.tail _ mem)).mono more₁).bind
        fun roles₂ vs more₂ later => .pure ?_
      exact List.forall_mem_cons.2 ⟨first.mono more₂, later⟩

/-- The macros of a proper program are proper values, and what is left of it is a proper program. -/
theorem defineMacros_alike (scope : ScopeId) {program : Node}
    (proper : program.Proper roles .program) :
    (T.units source).Alike roles (modifyGet (·.defineMacros scope program))
      (modifyGet (·.defineMacros scope program)) fun roles' left =>
        left.Proper roles' .program := by
  have definitions (d : MacroDefinition)
      (mem : d ∈ program.statements.filterMap MacroDefinition.ofStatement?) : d.Proper roles := by
    obtain ⟨s, mem, isDefinition⟩ := List.mem_filterMap.1 mem
    exact MacroDefinition.proper_of_ofStatement? (proper.statements s mem) isDefinition
  have defined (m : Machine) := m.defineMacros_eq scope program
  refine .modifyGet (fun m before => ⟨roles, .refl, ?_, ?_⟩) fun m m' beside => ⟨?_, ?_⟩
  · rw [defined]
    exact before.defineMacros scope definitions
  · rw [defined]
    exact .program fun s mem => proper.statements s (List.mem_filter.1 mem).1
  · rw [defined, defined]
  · rw [defined, defined]
    exact T.beside_defineMacros scope _ beside

variable (agree : ∀ depth e, T.Agree (ev depth · e) (ev' depth · e))

include agree

theorem body_alike {parameters : List Node} {body : Node} (proper : body.Proper roles .block)
    (scope : ScopeId) {arguments : List Node}
    (argumentsProper : ∀ a ∈ arguments, a.Proper roles .expression) :
    T.Alike roles (Expansion.bodyBy ev depth parameters body scope arguments)
      (Expansion.bodyBy ev' depth parameters body scope arguments)
      fun roles' v => v.Proper roles' ∧ T.Fine v := by
  refine (T.newQuotes_alike argumentsProper).bind fun roles₁ vs more₁ vsProper => ?_
  refine (T.newScope_alike fun b mem => ?_).bind fun roles₂ inner more₂ _ => ?_
  · exact vsProper _ (List.of_mem_zip (Assoc.mem_ofList mem)).2
  · exact agree depth inner roles₂ _ _ (proper.mono (more₁.trans more₂))

theorem replacement_alike (name : Text) {parameters : List Node} {body : Node}
    (proper : body.Proper roles .block) (scope : ScopeId) {arguments : List Node}
    (argumentsProper : ∀ a ∈ arguments, a.Proper roles .expression) :
    (T.units source).Alike roles (Expansion.replacementBy ev depth name parameters body scope arguments)
      (Expansion.replacementBy ev' depth name parameters body scope arguments)
      fun roles' node => node.Proper roles' .expression := by
  unfold Expansion.replacementBy
  split
  · exact .throw nofun
  · refine (T.outcome_alike (T.body_alike agree proper scope argumentsProper)).bind
      fun roles' outcome _ ended => ?_
    cases outcome with
    | failed fault =>
        refine .throw fun other same => ?_
        cases same
        exact ended rfl
    | value v | returned v =>
        cases v with
        | quote serial node =>
            cases ended.1 with
            | quote proper => exact .pure proper
        | error fault => cases ended.1
        | _ => exact .throw nofun

theorem step_alike (scope : ScopeId) {category : Category} {node : Node}
    (proper : node.Proper roles category) :
    (T.units source).Alike roles (Expansion.stepBy ev depth scope node)
      (Expansion.stepBy ev' depth scope node) fun roles' result =>
        result.Proper roles' category := by
  unfold Expansion.stepBy
  split
  · next t u name arguments =>
    refine .get_bind (fun _ _ => rfl) fun m before => ?_
    split
    · next serial parameters body inner found =>
      cases proper with
      | call _ argumentsProper =>
        -- A macro that is bound is a proper value, so that its body is a proper block.
        cases before.lookup found with
        | macroValue _ body =>
          refine (T.replacement_alike agree name body inner argumentsProper).bind
            fun roles' result _ h => ?_
          exact (T.remark_alike fun _ _ => rfl).bind fun _ _ more _ => .pure (h.mono more)
    · exact .pure proper
  · exact .pure proper

theorem expandProgram_alike (limit : Nat) {program : Node} (proper : program.Proper roles .program) :
    (T.units source).Alike roles (Session.expandProgramBy ev limit program)
      (Session.expandProgramBy ev' limit program) fun roles' expanded =>
        expanded.Proper roles' .program := by
  refine (T.defineMacros_alike macros proper).bind fun roles' left _ leftProper => ?_
  exact (T.units source).tracks.transformM (fun _ _ _ h => T.step_alike agree macros h) leftProper

/-! ### Evaluation -/

theorem evaluateProgram_alike (limit : Nat) {program : Node}
    (proper : program.Proper roles .program) :
    (T.units source).Alike roles (Session.evaluateProgramBy ev limit program)
      (Session.evaluateProgramBy ev' limit program) T.Ended := by
  refine (T.outcome_alike (agree limit Session.values roles _ _ proper)).tryCatch
    fun roles' refusal _ refuses => ?_
  split
  · exact (T.remark_alike fun _ _ => rfl).bind fun _ _ _ _ =>
      .pure (show Fault.stackOverflow ≠ .missingNode from nofun)
  · exact .throw refuses

omit agree in
theorem read_alike :
    (T.units source).Alike roles (Session.read source) (Session.read source) fun roles' program =>
      program.Proper roles' .program := by
  unfold Session.read
  dsimp only
  split
  · next accepted =>
    rw [List.isEmpty_iff] at accepted
    refine .pure (Node.fits.proper _ (derives_of_parse ?_).1)
    rw [Parsing.errors, accepted, List.map_nil]
  · next refused =>
    have mistaken : (parse source).diagnostics ≠ [] := fun none => refused (by rw [none]; rfl)
    exact (T.remark_alike fun _ _ => rfl).bind fun _ _ _ _ => .throw ⟨rfl, mistaken⟩

/-- A unit comes to the same with evaluators that agree on proper trees. -/
theorem answer_alike (limit : Nat) :
    (T.units source).Alike roles (Session.answerBy ev limit source) (Session.answerBy ev' limit source)
      fun roles' answer => T.Ended roles' answer.outcome := by
  refine T.read_alike.bind fun _ program _ proper => ?_
  refine (T.expandProgram_alike agree limit proper).bind fun _ expanded _ proper => ?_
  exact (T.evaluateProgram_alike agree limit proper).bind fun _ _ _ ended => .pure ended

end Eval.Terms

/-! ## Sessions side by side -/

namespace Session

theorem run_read (source : Text) (m : Machine) :
    (read source).run m =
      if (parse source).diagnostics = [] then .ok (parse source).program m
      else .error (.mistakes (parse source).diagnostics)
        (m.remark (.mistakes (parse source).diagnostics.length)) := by
  unfold read
  cases found : (parse source).diagnostics with
  | nil => simp only [found, List.isEmpty_nil, if_true]; rfl
  | cons d ds => simp only [found, List.isEmpty_cons, reduceCtorEq, if_false]; rfl

theorem perform_eq {α : Type} (s : Session) (c : Expand α) :
    s.perform c = ((s.perform c).1, ⟨(s.perform c).2.machine, s.limit⟩) := by
  unfold perform
  cases c.run s.machine <;> rfl

/-- Runs that end in the same way give the same result and lead to sessions side by side. -/
theorem perform_alike {J : Comparison Refusal} {α : Type} {roles : Roles} {c c' : Expand α}
    {post : Roles → α → Prop} (alike : J.Alike roles c c' post) {s t : Session}
    (proper : s.machine.Proper roles) (beside : J.Beside s.machine t.machine) :
    (t.perform c').1 = (s.perform c).1 ∧
      J.Beside (s.perform c).2.machine (t.perform c').2.machine ∧
        ∃ roles', (s.perform c).2.machine.Proper roles' ∧
          match (s.perform c).1 with
          | .ok a => post roles' a
          | .error refusal => J.Exits roles' refusal := by
  have ended := alike s.machine t.machine proper beside
  unfold perform
  generalize c.run s.machine = r, c'.run t.machine = r' at ended ⊢
  cases ended with
  | ok _ proper beside holds => exact ⟨rfl, beside, _, proper, holds⟩
  | error _ proper beside exits => exact ⟨rfl, beside, _, proper, exits⟩

end Session

end MonkeyLang
