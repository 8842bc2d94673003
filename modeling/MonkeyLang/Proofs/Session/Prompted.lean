import MonkeyLang.Proofs.Session.Refused
import MonkeyLang.Proofs.Session.Served
import MonkeyLang.Repl

/-!
# The prompt beside the server

The prompt and the server run the same units in the same sessions, and say in different words what has
come of them. What the server reports as an error the prompt writes before it asks for the next line,
except for a unit that ends with a let statement: of that it says nothing, whatever it has come to.

* `Repl.Reports` says what the two make of one unit.
* `Repl.line_reports` is the step, one line at the prompt; `Repl.lines_follow` is the run.
* `prompt_reports_errors` is the result, `fault_in_let_not_reported` an example of a fault that the
  prompt does not report.
-/

namespace MonkeyLang

namespace Session

/-- The session when its output has been taken over. -/
def quiet (s : Session) : Session := { s with machine := s.machine.clear }

/-- Output that has been taken over is output from before. -/
theorem sameSince_quiet (s : Session) : SameSince s.machine.events #[] s s.quiet :=
  ⟨rfl, #[], rfl, rfl⟩

/-- Where all output before a unit had been taken over, only what the unit has put out comes after
it. -/
theorem SameSince.drain {before : Array Event} {s t : Session} (same : SameSince before #[] s t) :
    ∃ printed, s.machine.events = before ++ printed ∧ ∀ written,
      Console.drain ⟨t, written⟩ = ⟨s.quiet, written ++ printed.map Event.output⟩ := by
  obtain ⟨limit, printed, out, is⟩ := same
  refine ⟨printed, out, fun written => ?_⟩
  obtain ⟨machine, _⟩ := t
  cases limit
  cases is
  simp [Console.drain, quiet, Machine.clear]

end Session

namespace Repl

/-! ## Reports -/

/-- The server responds to a unit with `response`, and the prompt with `output`. -/
inductive Reports : Except Refusal Answer → Response → Array Output → Prop
  | mistakes (diagnostics : List Diagnostic) :
    Reports (.error (.mistakes diagnostics))
      (.error (Text.intercalate "\n" (diagnostics.map Diagnostic.message)))
      #[.out (mistakesText diagnostics)]
  | expansion (fault : ExpansionFault) :
    Reports (.error (.expansion fault)) (.error fault.report)
      #[.log (.expansionAborted fault.message), .out (fault.report ++ "\n")]
  | fault (fault : Fault) :
    Reports (.ok ⟨.failed fault, false⟩) (.error fault.message) #[.out (fault.inspect ++ "\n")]
  | result (outcome : Outcome) (text : Text) :
    Reports (.ok ⟨outcome, false⟩) (.result text) #[.out (text ++ "\n")]
  | silent (outcome : Outcome) (response : Response) : Reports (.ok ⟨outcome, true⟩) response #[]

/-! ## Lines -/

/-- What the prompt does with what a line has come to. -/
def report : Except Refusal Answer → Front Unit
  | .ok answer =>
    if answer.silent then return ()
    else do Console.write ((← Console.inspect answer.outcome) ++ "\n")
  | .error (.mistakes diagnostics) => Console.write (mistakesText diagnostics)
  | .error (.expansion fault) => do
    Console.put (.log (.expansionAborted fault.message))
    Console.write (fault.report ++ "\n")
  | .error (.halted halt) => throw (.halted halt)

theorem line_of_blank {text : Text} (blank : Text.isBlankLine text = true) :
    line text = pure () := by
  unfold line
  rw [blank]
  rfl

theorem line_of_filled {text : Text} (filled : Text.isBlankLine text = false) :
    line text = Console.unit (·.run text) >>= report := by
  unfold line
  rw [filled]
  rfl

/-- A unit that does not halt is answered at the console. -/
theorem run_unit {text : Text} {c : Console}
    (going : ∀ halt, (c.session.run text).1 ≠ .error (.halted halt)) :
    (Console.unit (·.run text)).run c =
      .ok (c.session.run text).1 (Console.drain ⟨(c.session.run text).2, c.written⟩) := by
  unfold Console.unit
  rw [EStateM.run_bind, EStateM.run_get]
  dsimp only
  rw [EStateM.run_bind, EStateM.run_set]
  dsimp only
  split
  · next halt halted => exact absurd halted (going halt)
  · rfl

/-- An outcome that can be written is shown. -/
theorem run_report_of_inspect {outcome : Outcome} {text : Text} {c : Console}
    (shown : outcome.inspect c.session.machine.pieces = .ok text) :
    (report (.ok ⟨outcome, false⟩)).run c =
      .ok () { c with written := c.written ++ #[.out (text ++ "\n")] } := by
  have inspected : (Console.inspect outcome).run c = .ok text c := by
    unfold Console.inspect
    rw [EStateM.run_bind, EStateM.run_get]
    dsimp only
    rw [shown]
    rfl
  change (Console.inspect outcome >>= fun text => Console.write (text ++ "\n")).run c = _
  rw [run_bind_of_ok inspected]
  rfl

/-- Where the server has a response, the prompt has a report. -/
theorem exists_report {pieces : Pieces} {result : Except Refusal Answer} {response : Response}
    (tells : Server.Tells pieces result response) :
    ∃ output, Reports result response output ∧ ∀ c : Console, c.session.machine.pieces = pieces →
      (report result).run c = .ok () { c with written := c.written ++ output } := by
  cases result with
  | error refusal =>
      cases refusal with
      | halted halt => exact absurd tells id
      | mistakes diagnostics =>
          cases tells
          exact ⟨_, .mistakes diagnostics, fun _ _ => rfl⟩
      | expansion fault =>
          cases tells
          exact ⟨_, .expansion fault, fun _ _ => rfl⟩
  | ok answer =>
      obtain ⟨outcome, _ | _⟩ := answer
      · cases outcome with
        | failed fault =>
            cases tells
            exact ⟨_, .fault fault, fun _ _ => run_report_of_inspect rfl⟩
        | value v | returned v =>
            obtain ⟨shown, inspected, rfl⟩ := tells
            refine ⟨_, .result _ shown, fun c same => run_report_of_inspect ?_⟩
            rw [same]
            exact inspected
      · exact ⟨#[], .silent outcome response, fun _ _ => rfl⟩

variable {s t : Session} {text : Text} {response : Response}

/-- Whatever the server responds to a line, the prompt has a report of it in the same session. -/
theorem line_reports (reached : s.Reached) (filled : Text.isBlankLine text = false)
    (answered : (Server.evaluate text).run s = .ok response t) :
    ∃ printed output, t.machine.events = s.machine.events ++ printed ∧
      Reports (s.run text).1 response output ∧ ∀ written,
        (line text).run ⟨s.quiet, written⟩ =
          .ok () ⟨t.quiet, written ++ printed.map Event.output ++ output⟩ := by
  obtain ⟨rfl, tells⟩ := Server.evaluate_tells answered
  obtain ⟨roles, proper⟩ := reached.proper
  -- The session at the prompt lacks the output that has been taken over, which no unit looks at.
  obtain ⟨result, since, -⟩ := s.sameSince_quiet.run proper text
  obtain ⟨printed, events, drained⟩ := since.drain
  obtain ⟨output, reports, reported⟩ := exists_report tells
  refine ⟨printed, output, events, reports, fun written => ?_⟩
  have going (halt : Halt) : (s.quiet.run text).1 ≠ .error (.halted halt) := by
    intro halted
    rw [← result, halted] at tells
    exact tells
  have ran := run_unit (c := ⟨s.quiet, written⟩) going
  dsimp only at ran
  rw [result, drained] at ran
  rw [line_of_filled filled, run_bind_of_ok ran]
  exact reported _ rfl

/-! ## A row of lines -/

/-- Lines from a session to another, to which the server responds with `responses`, and the prompt
writes `output`. Nothing is said of blank lines. -/
inductive Transcript (prompt : Text) :
    Session → List Text → List Response → Array Output → Session → Prop
  | nil (s : Session) : Transcript prompt s [] [] #[] s
  | blank {s t : Session} {text : Text} {texts : List Text} {responses : List Response}
    {output : Array Output} : Text.isBlankLine text = true →
    Transcript prompt s texts responses output t →
    Transcript prompt s (text :: texts) responses (#[.out prompt] ++ output) t
  | unit {s t : Session} {text : Text} {texts : List Text} {response : Response}
    {responses : List Response} {printed : Array Event} {report output : Array Output} :
    Text.isBlankLine text = false →
    (s.run text).2.machine.events = s.machine.events ++ printed →
    Reports (s.run text).1 response report →
    Transcript prompt (s.run text).2 texts responses output t →
    Transcript prompt s (text :: texts) (response :: responses)
      (#[.out prompt] ++ printed.map Event.output ++ report ++ output) t

/-- The prompt follows the server from line to line. -/
theorem lines_follow (reached : s.Reached) (prompt : Text) {texts : List Text}
    {responses : List Response}
    (answered : ((texts.filter fun text => ! Text.isBlankLine text).mapM Server.evaluate).run s =
      .ok responses t) :
    ∃ output, Transcript prompt s texts responses output t ∧ ∀ after written,
      (lines prompt (texts ++ after)).run ⟨s.quiet, written⟩ =
        (lines prompt after).run ⟨t.quiet, written ++ output⟩ := by
  induction texts generalizing s responses with
  | nil =>
      cases answered
      exact ⟨#[], .nil _, fun after written => by rw [Array.append_empty, List.nil_append]⟩
  | cons text texts ih =>
      have prompts (after : List Text) (c : Console) :
          (lines prompt (text :: texts ++ after)).run c =
            (line text >>= fun _ => lines prompt (texts ++ after)).run
              { c with written := c.written ++ #[.out prompt] } := rfl
      cases filled : Text.isBlankLine text with
      | true =>
          rw [List.filter_cons_of_neg (by simp [filled])] at answered
          obtain ⟨output, transcript, follow⟩ := ih reached answered
          refine ⟨_, .blank filled transcript, fun after written => ?_⟩
          rw [prompts, line_of_blank filled, pure_bind, follow, Array.append_assoc]
      | false =>
          rw [List.filter_cons_of_pos (by simp [filled]), List.mapM_cons] at answered
          obtain ⟨response, s₁, here, answered⟩ := exists_of_run_bind answered
          obtain ⟨others, s₂, later, answered⟩ := exists_of_run_bind answered
          cases answered
          obtain ⟨printed, report, events, reports, ran⟩ := line_reports reached filled here
          obtain ⟨rfl, -⟩ := Server.evaluate_tells here
          obtain ⟨output, transcript, follow⟩ := ih (reached.run text) later
          refine ⟨_, .unit filled events reports transcript, fun after written => ?_⟩
          rw [prompts, run_bind_of_ok (ran _), follow]
          simp only [Array.append_assoc]

/-- The prompt writes nothing of a unit exactly if this is silent. -/
theorem Reports.eq_empty_iff {result : Except Refusal Answer} {output : Array Output}
    (reports : Reports result response output) :
    output = #[] ↔ ∃ answer, result = .ok answer ∧ answer.silent = true := by
  cases reports with
  | silent outcome response => exact iff_of_true rfl ⟨_, rfl, rfl⟩
  | fault fault | result outcome text =>
      refine iff_of_false (by simp) ?_
      rintro ⟨answer, same, is⟩
      cases same
      cases is
  | mistakes diagnostics | expansion fault =>
      refine iff_of_false (by simp) ?_
      rintro ⟨answer, ⟨⟩, -⟩

end Repl

open Repl (Reports Transcript lines)

/-- In every session, where the server responds to a line that is not blank, the prompt leads to the same
session by it, and before the next prompt it writes what the line has printed and then a report: all
mistakes, or why a macro could not be expanded, or the fault, or the result. There is no report exactly
if the line is not refused and ends with a let statement. So the prompt follows the server through all
lines. -/
theorem prompt_reports_errors {s : Session} (reached : s.Reached) (prompt : Text) :
    (∀ text, Text.isBlankLine text = false → ∀ response t,
      (Server.evaluate text).run s = .ok response t →
        ∃ printed output, t.machine.events = s.machine.events ++ printed ∧
          Reports (s.run text).1 response output ∧
          (output = #[] ↔
            (s.run text).1.isOk = true ∧ Session.endsWithLet (parse text).program = true) ∧
          ∀ texts written, (lines prompt (text :: texts)).run ⟨s.quiet, written⟩ =
            (lines prompt texts).run
              ⟨t.quiet, written ++ #[.out prompt] ++ printed.map Event.output ++ output⟩) ∧
    ∀ texts responses t,
      ((texts.filter fun text => ! Text.isBlankLine text).mapM Server.evaluate).run s =
        .ok responses t →
      ∃ output, Transcript prompt s texts responses output t ∧ ∀ written,
        (lines prompt texts).run ⟨s.quiet, written⟩ =
          .ok () ⟨t.quiet, written ++ output ++ #[.out prompt]⟩ := by
  refine ⟨fun text filled response t answered => ?_, fun texts responses t answered => ?_⟩
  · obtain ⟨printed, output, events, reports, ran⟩ := Repl.line_reports reached filled answered
    refine ⟨printed, output, events, reports, ?_, fun texts written => ?_⟩
    · rw [reports.eq_empty_iff]
      cases result : (s.run text).1 with
      | error refusal =>
          refine iff_of_false ?_ (fun ⟨is, _⟩ => nomatch is)
          rintro ⟨answer, ⟨⟩, -⟩
      | ok answer =>
          obtain ⟨-, silent, -⟩ := reached.run_ok result
          rw [← silent]
          refine ⟨fun ⟨_, same, is⟩ => ⟨rfl, ?_⟩, fun is => ⟨answer, rfl, is.2⟩⟩
          cases same
          exact is
    · change (Repl.line text >>= fun _ => lines prompt texts).run
        ⟨s.quiet, written ++ #[.out prompt]⟩ = _
      rw [run_bind_of_ok (ran _)]
  · obtain ⟨output, transcript, follow⟩ := Repl.lines_follow reached prompt answered
    refine ⟨output, transcript, fun written => ?_⟩
    have last := follow [] written
    rw [List.append_nil] at last
    rw [last]
    rfl

/-- A division by zero. -/
theorem prompt_reports_errors_division :
    let s := Session.start 0
    let text : Text := "1 / 0\n"
    s.Reached ∧ Text.isBlankLine text = false ∧
      ∃ t, (Server.evaluate text).run s = .ok (.error "division by zero") t ∧
        ∃ printed : Array Event, (lines ">> " [text]).run ⟨s.quiet, #[]⟩ =
          (lines ">> " []).run ⟨t.quiet, #[] ++ #[.out ">> "] ++ printed.map Event.output ++
            #[.out "ERROR: division by zero\n"]⟩ := by
  intro s text
  have reached : s.Reached := .start 0
  have filled : Text.isBlankLine text = false := by decide +kernel
  have responded : value? ((Server.evaluate text).run s) = some (.error "division by zero") := by
    decide +kernel
  have result : (s.run text).1 = .ok ⟨.failed .divisionByZero, false⟩ := by cbv
  obtain ⟨t, answered⟩ := exists_of_value?_eq_some responded
  obtain ⟨printed, output, -, reports, -, ran⟩ :=
    (prompt_reports_errors reached ">> ").1 text filled _ t answered
  rw [result] at reports
  cases reports
  exact ⟨reached, filled, t, answered, printed, ran [] #[]⟩

/-- But of the same division in a let statement, which the server responds to with the same error, the
prompt says nothing. -/
theorem fault_in_let_not_reported :
    let s := Session.start 0
    let text : Text := "let x = 1 / 0;\n"
    s.Reached ∧ Text.isBlankLine text = false ∧
      (∃ t, (Server.evaluate text).run s = .ok (.error "division by zero") t) ∧
        ∃ c, (lines ">> " [text]).run (Console.ofSession s) = .ok () c ∧ c.stdout = ">> >> " := by
  intro s text
  have responded : value? ((Server.evaluate text).run s) = some (.error "division by zero") := by
    decide +kernel
  have shown : value? ((lines ">> " [text] >>= fun _ => return (← get).stdout : Front Text).run
      (Console.ofSession s)) = some ">> >> " := by
    decide +kernel
  obtain ⟨c', ran⟩ := exists_of_value?_eq_some shown
  obtain ⟨_, c, ran, rest⟩ := exists_of_run_bind ran
  exact ⟨.start 0, by decide +kernel, exists_of_value?_eq_some responded, c, ran,
    (EStateM.Result.ok.inj rest).1⟩

end MonkeyLang
