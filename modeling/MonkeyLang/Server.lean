import MonkeyLang.Json.Reader
import MonkeyLang.Json.Writer
import MonkeyLang.Session
import MonkeyLang.Text.Blank
import MonkeyLang.Text.Lines

/-!
# The server

A server evaluates requests in one session. A request is a line of bytes that holds a JSON object:
the command `eval` and the code to evaluate. The response to it is a JSON object in a line, too. For a
line that is no JSON text the response says what the decoder has found wrong with it. How it puts that
is a parameter, `reason`, here and in what is built on `Server.handle`.

* `Server.handle` answers a request.
* `Server.receive` takes bytes as they come in and answers the requests that are complete.
-/

namespace MonkeyLang

/-- The answer to a request. -/
inductive Response where
  | result (text : Text)
  | error (message : Text)
deriving DecidableEq, Repr

namespace Response

/-- The response as a JSON object. -/
def toJson : Response → Json
  | result text => .obj [("ok", .bool true), ("result", .str text)]
  | error message => .obj [("ok", .bool false), ("error", .str message)]

/-- The line that is sent. -/
def line (r : Response) : String := r.toJson.write ++ "\n"

end Response

/-- Why a line of bytes is no request. -/
inductive RequestFlaw where
  /-- The line is not a JSON text. -/
  | malformed
  | notObject
  | unknownCommand (command : Text)
  /-- The line holds a number with too many digits. -/
  | overlong
deriving DecidableEq, Repr

namespace Server

/-- The code that a line of bytes asks to evaluate. A command or a code that is no string counts
as the text of its value. -/
def requestedCode (line : List UInt8) : Except RequestFlaw Text :=
  match String.fromUTF8? ⟨line.toArray⟩ with
  | none => .error .malformed
  | some text =>
    match Json.read text with
    | .error .malformed => .error .malformed
    | .error .overlong => .error .overlong
    | .ok (.obj members) =>
      match (Assoc.get? ("cmd" : Text) members).getD .null with
      | .str command =>
        if command = "eval" then .ok ((Assoc.get? ("code" : Text) members).map Json.display |>.getD "")
        else .error (.unknownCommand command)
      | command => .error (.unknownCommand command.display)
    | .ok _ => .error .notObject

/-- A server at work. -/
abbrev Serve := EStateM Halt Session

/-- The response to the outcome of a unit. -/
def respond (outcome : Outcome) : Serve Response :=
  match outcome with
  | .failed fault => return .error fault.message
  | outcome => do
    match outcome.inspect (← get).machine.pieces with
    | .ok text => return .result text
    | .error halt => throw halt

/-- Evaluate code. -/
def evaluate (code : Text) : Serve Response := do
  match ← modifyGet (·.run code) with
  | .ok answer => respond answer.outcome
  | .error (.mistakes diagnostics) =>
    return .error (Text.intercalate "\n" (diagnostics.map Diagnostic.message))
  | .error (.expansion fault) => return .error ("macro expansion failed: " ++ fault.message)
  | .error (.halted halt) => throw halt

variable (reason : List UInt8 → Text)

/-- Answer a request. -/
def handle (line : List UInt8) : Serve Response :=
  match requestedCode line with
  | .ok code => evaluate code
  | .error .malformed => return .error ("Invalid request: " ++ reason line)
  | .error .notObject => return .error "Invalid request: expected a JSON object"
  | .error (.unknownCommand command) => return .error ("Unknown cmd: " ++ command)
  | .error .overlong => throw .overlong

/-! ## Connections -/

/-- A newline ends a request. -/
def newline : UInt8 := 10

/-- A request without the white space at its ends. -/
def stripLine (line : List UInt8) : List UInt8 :=
  Text.stripOf (fun b => Text.isAsciiSpace (Char.ofNat b.toNat)) line

/-- Answer requests one after the other. Lines that hold nothing but white space are none. -/
def handleAll : List (List UInt8) → Serve (List Response)
  | [] => return []
  | line :: lines => do
    match stripLine line with
    | [] => handleAll lines
    | line => do
      let response ← handle reason line
      let responses ← handleAll lines
      return response :: responses

/-- Bytes come in behind those that wait for the end of their line: answer the requests that are
complete, and keep what is left. -/
def receive (waiting chunk : List UInt8) : Serve (List Response × List UInt8) := do
  let (lines, left) := Text.piecesEndingIn newline (waiting ++ chunk)
  return (← handleAll reason lines, left)

/-- Receive chunks of bytes one after the other. Where nothing is received the connection has ended. -/
def receiveAll (waiting : List UInt8) : List (List UInt8) → Serve (List Response)
  | [] | [] :: _ => return []
  | chunk :: chunks => do
    let (responses, left) ← receive reason waiting chunk
    let others ← receiveAll left chunks
    return responses ++ others

/-- All responses on a connection that delivers these chunks. -/
def connection (chunks : List (List UInt8)) : Serve (List Response) :=
  receiveAll reason [] chunks

end Server

end MonkeyLang
