import MonkeyLang.Session

/-!
# A session at a console

A front end runs units of source in a session and writes to the console. What the program prints
and what the front end says stand in one order there, as they came.

* `Console.unit` runs a unit and takes its output over.
* `Console.stdout` and `Console.stderr` are the texts of the two streams.
-/

namespace MonkeyLang

/-- What is written to a console. -/
inductive Output where
  | out (text : Text)
  | err (text : Text)
  /-- A remark for the log, which is shown only if the log is verbose. -/
  | log (remark : Remark)

/-- An event of the machine as output. -/
def Event.output : Event → Output
  | printed line => .out (line ++ "\n")
  | remarked remark => .log remark

/-- A session and what has been written, the oldest first. -/
structure Console where
  session : Session
  written : Array Output

/-- Why a front end breaks off. -/
inductive Break where
  | halted (halt : Halt)
  /-- A file is no text. -/
  | undecodable
  /-- A path holds a character that no path can hold. -/
  | impossiblePath
deriving DecidableEq, Repr

/-- The wording of a break. -/
def Break.message : Break → String
  | halted .overflow => "recursion too deep"
  | halted .overlong => "number too long"
  | halted .unencodable => "text cannot be encoded"
  | undecodable => "file is not UTF-8 text"
  | impossiblePath => "path cannot be opened"

/-- A front end at work. -/
abbrev Front := EStateM Break Console

namespace Console

/-- A console at which nothing has happened yet. -/
def ofSession (session : Session) : Console := ⟨session, #[]⟩

/-- Write output. -/
def put (output : Output) : Front Unit :=
  modify fun c => { c with written := c.written.push output }

/-- Write a text. -/
def write (text : Text) : Front Unit := put (.out text)

/-- Write a text to the stream of errors. -/
def complain (text : Text) : Front Unit := put (.err text)

/-- Take over the output of the machine. -/
def drain (c : Console) : Console :=
  let machine := c.session.machine
  ⟨{ c.session with machine := machine.clear }, c.written ++ machine.events.map Event.output⟩

/-- Run a unit of source and take its output over. A refusal is an answer, a halt is not. -/
def unit {α : Type} (run : Session → Except Refusal α × Session) : Front (Except Refusal α) := do
  let c ← get
  let (result, session) := run c.session
  set (drain ⟨session, c.written⟩)
  match result with
  | .error (.halted halt) => throw (.halted halt)
  | result => return result

/-- The text of an outcome. -/
def inspect (outcome : Outcome) : Front Text := do
  match outcome.inspect (← get).session.machine.pieces with
  | .ok text => return text
  | .error halt => throw (.halted halt)

/-- Forget what has been written. -/
def clear (c : Console) : Console := { c with written := #[] }

/-- What has been written to the first stream. -/
def stdout (c : Console) : Text :=
  Text.join (c.written.toList.map fun
    | .out text => text
    | _ => "")

/-- What has been written to the stream of errors, where the log goes, too. -/
def stderr (c : Console) (verbose : Bool) : Text :=
  Text.join (c.written.toList.map fun
    | .err text => text
    | .log remark => if verbose then remark.text ++ "\n" else ""
    | .out _ => "")

end Console

/-- The mistakes of a unit, each in a line of its own. -/
def mistakesText (diagnostics : List Diagnostic) : Text :=
  Text.join ("parser errors:\n" :: diagnostics.map fun d => "\t" ++ d.message ++ "\n")

/-- The text for a macro that could not be expanded. -/
def ExpansionFault.report (fault : ExpansionFault) : Text :=
  "macro expansion failed: " ++ fault.message

end MonkeyLang
