import MonkeyLang.Proofs.Session.Outcomes
import MonkeyLang.Server

/-!
# A server is a session

A server evaluates the code that requests ask for, unit after unit in one session, and tells what has
come of each unit. Any other line is turned down and leaves the session as it is, so that it makes no
difference to the other requests, wherever it stands among them.

* `Server.Asks` says which lines ask to evaluate a code, `Server.asked?` finds it.
* `Server.Tells` says which response tells what a unit has come to.
* `Server.handle_ok` is the step, what the answering of one line does; `Server.mapM_handle_ok` is the run.
* `server_runs_session` is the result for lines one after the other.
-/

namespace MonkeyLang

namespace Session

/-- The session after some units of source. -/
def runAll (s : Session) (sources : List Text) : Session :=
  sources.foldl (fun s source => (s.run source).2) s

theorem runAll_append (s : Session) (sources more : List Text) :
    s.runAll (sources ++ more) = (s.runAll sources).runAll more :=
  List.foldl_append ..

theorem Reached.runAll {s : Session} (reached : s.Reached) (sources : List Text) :
    (s.runAll sources).Reached := by
  induction sources generalizing s with
  | nil => exact reached
  | cons source sources ih => exact ih (reached.run source)

end Session

namespace Server

/-! ## Requests -/

/-- The line is the UTF-8 form of a JSON object with the command `eval`. The code is its member of this
name, or the text of that if it is no string, and empty if there is none. -/
def Asks (line : List UInt8) (code : Text) : Prop :=
  ∃ text members, String.fromUTF8? ⟨line.toArray⟩ = some text ∧
    Json.read text = .ok (.obj members) ∧ Assoc.get? ("cmd" : Text) members = some (.str "eval") ∧
    code = ((Assoc.get? ("code" : Text) members).map Json.display).getD ""

theorem requestedCode_eq_ok_iff {line : List UInt8} {code : Text} :
    requestedCode line = .ok code ↔ Asks line code := by
  constructor
  · intro requested
    unfold requestedCode at requested
    split at requested
    · cases requested
    · next text decoded =>
      split at requested
      · cases requested
      · cases requested
      · next members read =>
        split at requested
        · next command is =>
          split at requested
          · next isEval =>
            cases requested
            rw [isEval] at is
            refine ⟨text, members, decoded, read, ?_, rfl⟩
            cases found : Assoc.get? ("cmd" : Text) members with
            | none =>
                rw [found] at is
                cases is
            | some json =>
                rw [found] at is
                exact congrArg some is
          · cases requested
        · cases requested
      · cases requested
  · rintro ⟨text, members, decoded, read, command, rfl⟩
    unfold requestedCode
    rw [decoded]
    dsimp only
    rw [read]
    dsimp only
    rw [command]
    rfl

/-- The code that a line asks to evaluate, if it asks for that. -/
def asked? (line : List UInt8) : Option Text := (requestedCode line).toOption

theorem asked?_eq_some_iff {line : List UInt8} {code : Text} :
    asked? line = some code ↔ Asks line code := by
  rw [← requestedCode_eq_ok_iff, asked?]
  cases requestedCode line <;> simp [Except.toOption]

theorem asked?_eq_none_iff {line : List UInt8} :
    asked? line = none ↔ ∃ flaw, requestedCode line = .error flaw := by
  rw [asked?]
  cases requestedCode line <;> simp [Except.toOption]

/-! ## Responses -/

/-- The response tells what a unit has come to: its result by the text of that, and by a message what it
has been refused for or which fault it ended with. -/
def Tells (pieces : Pieces) (result : Except Refusal Answer) (response : Response) : Prop :=
  match result with
  | .ok ⟨.failed fault, _⟩ => response = .error fault.message
  | .ok ⟨outcome, _⟩ => ∃ text, outcome.inspect pieces = .ok text ∧ response = .result text
  | .error (.mistakes diagnostics) =>
    response = .error (Text.intercalate "\n" (diagnostics.map Diagnostic.message))
  | .error (.expansion fault) => response = .error ("macro expansion failed: " ++ fault.message)
  | .error (.halted _) => False

theorem respond_tells {outcome : Outcome} {silent : Bool} {s s' : Session} {response : Response}
    (ran : (respond outcome).run s = .ok response s') :
    s' = s ∧ Tells s.machine.pieces (.ok ⟨outcome, silent⟩) response := by
  unfold respond at ran
  cases outcome with
  | failed fault =>
      cases ran
      exact ⟨rfl, rfl⟩
  | value v | returned v =>
      rw [EStateM.run_bind, EStateM.run_get] at ran
      dsimp only at ran
      split at ran
      · next text shown =>
        cases ran
        exact ⟨rfl, text, shown, rfl⟩
      · cases ran

/-- Code is evaluated by a unit of the session. -/
theorem evaluate_tells {code : Text} {s s' : Session} {response : Response}
    (ran : (evaluate code).run s = .ok response s') :
    s' = (s.run code).2 ∧ Tells (s.run code).2.machine.pieces (s.run code).1 response := by
  have first : (modifyGet (·.run code) : Serve (Except Refusal Answer)).run s =
      .ok (s.run code).1 (s.run code).2 := rfl
  unfold evaluate at ran
  rw [run_bind_of_ok first] at ran
  cases result : (s.run code).1 with
  | ok answer =>
      rw [result] at ran
      exact respond_tells ran
  | error refusal =>
      rw [result] at ran
      cases refusal with
      | mistakes diagnostics | expansion fault =>
          cases ran
          exact ⟨rfl, rfl⟩
      | halted halt => cases ran

variable {reason : List UInt8 → Text}

/-- A line that asks for nothing is turned down. -/
theorem handle_of_flaw {line : List UInt8} {flaw : RequestFlaw}
    (flawed : requestedCode line = .error flaw) (short : flaw ≠ .overlong) :
    ∃ message, handle reason line = pure (.error message) := by
  unfold handle
  rw [flawed]
  cases flaw with
  | overlong => exact absurd rfl short
  | _ => exact ⟨_, rfl⟩

/-! ## Lines -/

/-- The response to a line in a session. -/
def Answers (reason : List UInt8 → Text) (s : Session) (line : List UInt8) (response : Response) : Prop :=
  match asked? line with
  | some code => Tells (s.run code).2.machine.pieces (s.run code).1 response
  | none => ∃ message, response = .error message ∧ (handle reason line).run s = .ok response s

/-- One line leads on by the code that it asks for, if any. -/
theorem handle_ok {line : List UInt8} {s s' : Session} {response : Response}
    (answered : (handle reason line).run s = .ok response s') :
    s' = s.runAll (asked? line).toList ∧ Answers reason s line response := by
  unfold Answers
  cases asked : asked? line with
  | some code =>
      have requested := requestedCode_eq_ok_iff.2 (asked?_eq_some_iff.1 asked)
      unfold handle at answered
      rw [requested] at answered
      exact evaluate_tells answered
  | none =>
      obtain ⟨flaw, flawed⟩ := asked?_eq_none_iff.1 asked
      -- An overlong number is the one flaw that halts the server.
      have short : flaw ≠ .overlong := by
        rintro rfl
        unfold handle at answered
        rw [flawed] at answered
        cases answered
      obtain ⟨message, is⟩ := handle_of_flaw flawed short
      rw [is] at answered
      cases answered
      exact ⟨rfl, message, rfl, congrArg (·.run s) is⟩

/-- Lines one after the other lead on by the codes that they ask for, each from where those before it
have led. -/
theorem mapM_handle_ok {lines : List (List UInt8)} {s s' : Session} {responses : List Response}
    (answered : (lines.mapM (handle reason)).run s = .ok responses s') :
    s' = s.runAll (lines.filterMap asked?) ∧ responses.length = lines.length ∧
      ∀ before line after, lines = before ++ line :: after →
        ∃ response, responses[before.length]? = some response ∧
          Answers reason (s.runAll (before.filterMap asked?)) line response := by
  induction lines generalizing s responses with
  | nil =>
      cases answered
      refine ⟨rfl, rfl, fun before line after split => ?_⟩
      simp at split
  | cons first lines ih =>
      rw [List.mapM_cons] at answered
      obtain ⟨response, s₁, here, answered⟩ := exists_of_run_bind answered
      obtain ⟨others, s₂, later, answered⟩ := exists_of_run_bind answered
      cases answered
      obtain ⟨rfl, answers⟩ := handle_ok here
      obtain ⟨rfl, length, each⟩ := ih later
      have codes (rest : List (List UInt8)) : (first :: rest).filterMap asked? =
          (asked? first).toList ++ rest.filterMap asked? := by
        rw [List.filterMap_cons]
        cases asked? first <;> rfl
      refine ⟨?_, congrArg (· + 1) length, fun before line after split => ?_⟩
      · rw [codes, Session.runAll_append]
      · cases before with
        | nil =>
            cases split
            exact ⟨response, rfl, answers⟩
        | cons line' before =>
            obtain ⟨rfl, rest⟩ := List.cons.inj split
            obtain ⟨response', found, answers'⟩ := each before line after rest
            refine ⟨response', found, ?_⟩
            rw [codes, Session.runAll_append]
            exact answers'

/-- The responses to those of the lines that ask for code. -/
def responsesToAsked (lines : List (List UInt8)) (responses : List Response) : List Response :=
  ((lines.zip responses).filter fun p => (asked? p.1).isSome).map Prod.snd

/-- Lines that ask for nothing make no difference to the others. -/
theorem mapM_handle_asked {lines : List (List UInt8)}
    (short : ∀ line ∈ lines, requestedCode line ≠ .error .overlong) :
    (do return responsesToAsked lines (← lines.mapM (handle reason))) =
      (lines.filter fun line => (asked? line).isSome).mapM (handle reason) := by
  induction lines with
  | nil => rfl
  | cons line lines ih =>
      have later := ih fun l mem => short l (.tail _ mem)
      rw [List.mapM_cons]
      simp only [bind_assoc, pure_bind]
      cases asked : asked? line with
      | some code =>
          rw [List.filter_cons_of_pos (by simp [asked]), List.mapM_cons, ← later]
          simp only [bind_assoc, pure_bind]
          refine bind_congr fun response => bind_congr fun responses => ?_
          rw [responsesToAsked, List.zip_cons_cons, List.filter_cons_of_pos (by simp [asked])]
          rfl
      | none =>
          obtain ⟨flaw, flawed⟩ := asked?_eq_none_iff.1 asked
          have fits : flaw ≠ .overlong := by
            rintro rfl
            exact short line (.head _) flawed
          obtain ⟨message, is⟩ := handle_of_flaw flawed fits
          rw [List.filter_cons_of_neg (by simp [asked]), ← later, is, pure_bind]
          refine bind_congr fun responses => ?_
          rw [responsesToAsked, List.zip_cons_cons, List.filter_cons_of_neg (by simp [asked])]
          rfl

/-- The response is a result exactly if the unit comes to something other than an error. -/
theorem Tells.exists_result_iff {s : Session} (reached : s.Reached) {code : Text}
    {response : Response} (tells : Tells (s.run code).2.machine.pieces (s.run code).1 response) :
    (∃ text, response = .result text) ↔
      ∃ answer, (s.run code).1 = .ok answer ∧ answer.outcome.isError = false := by
  cases result : (s.run code).1 with
  | error refusal =>
      rw [result] at tells
      cases refusal with
      | halted halt => cases tells
      | mistakes diagnostics | expansion fault =>
          cases tells
          simp
  | ok answer =>
      obtain ⟨-, -, error⟩ := reached.run_ok result
      rw [result] at tells
      obtain ⟨outcome, silent⟩ := answer
      cases outcome with
      | failed fault =>
          cases tells
          simpa using error.2 ⟨fault, rfl⟩
      | value v | returned v =>
          obtain ⟨text, -, rfl⟩ := tells
          refine iff_of_true ⟨text, rfl⟩ ⟨_, rfl, Bool.eq_false_iff.2 fun is => ?_⟩
          obtain ⟨fault, other⟩ := error.1 is
          cases other

/-- Where lines are answered, none of them holds an overlong number. -/
theorem ne_overlong_of_answered {lines : List (List UInt8)} {s s' : Session}
    {responses : List Response} (answered : (lines.mapM (handle reason)).run s = .ok responses s') :
    ∀ line ∈ lines, requestedCode line ≠ .error .overlong := by
  rintro line mem overlong
  obtain ⟨before, after, split⟩ := List.append_of_mem mem
  obtain ⟨-, -, each⟩ := mapM_handle_ok answered
  obtain ⟨response, -, answers⟩ := each before line after split
  unfold Answers at answers
  rw [asked?_eq_none_iff.2 ⟨_, overlong⟩] at answers
  obtain ⟨message, -, ran⟩ := answers
  unfold handle at ran
  rw [overlong] at ran
  cases ran

end Server

/-- The member `ok` of a response says whether it is a result. -/
theorem Response.get?_ok_toJson (r : Response) :
    Json.get? "ok" r.toJson = some (.bool true) ↔ ∃ text, r = .result text := by
  cases r with
  | result text => exact iff_of_true rfl ⟨text, rfl⟩
  | error message =>
      refine iff_of_false (fun same => ?_) (fun ⟨_, same⟩ => nomatch same)
      cases same

open Server (asked? Asks Tells handle responsesToAsked)

/-- Where a server answers lines one after the other, it runs the codes that they ask for in its
session, in order: that is the session it comes to, and there is one response to each line. Such a line
is told what its code has come to, and the response says that all is well if and only if this is not
refused and not an error. Any other line gets an error and leaves the session as it was. So
wherever such lines are put in or left out, the other responses and the session are the same. -/
theorem server_runs_session {s s' : Session} (reached : s.Reached) {reason : List UInt8 → Text}
    {lines : List (List UInt8)} {responses : List Response}
    (answered : (lines.mapM (handle reason)).run s = .ok responses s') :
    (∀ line code, asked? line = some code ↔ Asks line code) ∧
    s' = s.runAll (lines.filterMap asked?) ∧ responses.length = lines.length ∧
    (∀ before line after, lines = before ++ line :: after →
      let t := s.runAll (before.filterMap asked?)
      ∃ response, responses[before.length]? = some response ∧
        (∀ code, Asks line code →
          Tells (t.run code).2.machine.pieces (t.run code).1 response ∧
            (Json.get? "ok" response.toJson = some (.bool true) ↔
              ∃ answer, (t.run code).1 = .ok answer ∧ answer.outcome.isError = false)) ∧
        ((¬ ∃ code, Asks line code) →
          (∃ message, response = .error message) ∧ (handle reason line).run t = .ok response t)) ∧
    ∀ others, (others.filter fun line => (asked? line).isSome) =
        (lines.filter fun line => (asked? line).isSome) →
      (∀ line ∈ others, Server.requestedCode line ≠ .error .overlong) →
        ∃ responses', (others.mapM (handle reason)).run s = .ok responses' s' ∧
          responsesToAsked others responses' = responsesToAsked lines responses := by
  obtain ⟨session, length, each⟩ := Server.mapM_handle_ok answered
  refine ⟨fun _ _ => Server.asked?_eq_some_iff, session, length, ?_, ?_⟩
  · intro before line after split t
    obtain ⟨response, found, answers⟩ := each before line after split
    refine ⟨response, found, fun code asks => ?_, fun none => ?_⟩
    · unfold Server.Answers at answers
      rw [Server.asked?_eq_some_iff.2 asks] at answers
      refine ⟨answers, ?_⟩
      rw [Response.get?_ok_toJson]
      exact answers.exists_result_iff (reached.runAll _)
    · unfold Server.Answers at answers
      cases asked : asked? line with
      | some code => exact absurd ⟨code, Server.asked?_eq_some_iff.1 asked⟩ none
      | none =>
          rw [asked] at answers
          obtain ⟨message, rfl, kept⟩ := answers
          exact ⟨⟨message, rfl⟩, kept⟩
  · intro others same short
    have filtered : ((lines.filter fun line => (asked? line).isSome).mapM (handle reason)).run s =
        .ok (responsesToAsked lines responses) s' := by
      rw [← Server.mapM_handle_asked (Server.ne_overlong_of_answered answered), EStateM.run_bind,
        answered]
      rfl
    rw [← same, ← Server.mapM_handle_asked short] at filtered
    obtain ⟨responses', s'', ran, rest⟩ := exists_of_run_bind filtered
    obtain ⟨equal, rfl⟩ := EStateM.Result.ok.inj rest
    exact ⟨responses', ran, equal⟩

/-- Four lines, of which two ask for nothing and one for code that ends with a fault. -/
theorem server_runs_session_fault :
    let s := Session.start 0
    let reason (_ : List UInt8) : Text := "Expecting value: line 1 column 1 (char 0)"
    let lines := ["\x7b\"cmd\": \"eval\", \"code\": \"let x = 2; x\"\x7d", "[1]", "x",
      "\x7b\"cmd\": \"eval\", \"code\": \"let y = x / 0;\"\x7d"].map (·.toUTF8.data.toList)
    s.Reached ∧ ∃ s', (lines.mapM (handle reason)).run s = .ok [.result "2",
        .error "Invalid request: expected a JSON object",
        .error "Invalid request: Expecting value: line 1 column 1 (char 0)",
        .error "division by zero"] s' ∧
      s' = s.runAll ["let x = 2; x", "let y = x / 0;"] := by
  intro s reason lines
  have reached : s.Reached := .start 0
  have asked : lines.filterMap asked? = [↑"let x = 2; x", ↑"let y = x / 0;"] := by decide +kernel
  have responses : value? ((lines.mapM (handle reason)).run s) = some [.result "2",
      .error "Invalid request: expected a JSON object",
      .error "Invalid request: Expecting value: line 1 column 1 (char 0)",
      .error "division by zero"] := by
    decide +kernel
  obtain ⟨s', answered⟩ := exists_of_value?_eq_some responses
  refine ⟨reached, s', answered, ?_⟩
  rw [← asked]
  exact (server_runs_session reached answered).2.1

end MonkeyLang
