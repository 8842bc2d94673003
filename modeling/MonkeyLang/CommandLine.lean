import MonkeyLang.CommandLine.Arguments
import MonkeyLang.FileTree
import MonkeyLang.Repl
import MonkeyLang.Settings

/-!
# The command

The command runs a file, or prompts if there is none; before that it runs the prelude that the
arguments or the settings name. Everything it needs from outside is given to it, so that a run is
a function of its surroundings: `CommandLine.run`.
-/

namespace MonkeyLang

namespace CommandLine

/-! ## Texts -/

/-- The version. -/
def version : String := "0.1.0"

/-- How the command is used. -/
def usage : String := "usage: monkey [-h] [--prelude PRELUDE] [--version] [file]\n"

/-- The help. -/
def help : String := usage ++ "
Monkey language interpreter

positional arguments:
  file               Source file to run (omit for a REPL)

options:
  -h, --help         show this help message and exit
  --prelude PRELUDE  Source file evaluated before anything else (default:
                     $MONKEY_PRELUDE_PATH)
  --version          show program's version number and exit
"

/-- The line for the version. -/
def versionText : String := s!"monkey {version}\n"

/-- The text for arguments that cannot be used. -/
def refusal (e : UsageError) : Text := usage ++ "monkey: error: " ++ e.message ++ "\n"

/-- What the prompt starts with. -/
def banner : String := s!"Monkey {version}. Type in commands.\n"

/-! ## Files -/

/-- The text of a file, with newlines alone as line ends. -/
def decode? (bytes : List UInt8) : Option String := do
  let text ← String.fromUTF8? ⟨bytes.toArray⟩
  return String.ofList (Text.unifyNewlines text.toList)

/-- Run a file whose reading came to `contents`, and tell whether all went well. -/
def runFile (path : FilePath) (contents : Except FileError (List UInt8)) : Front Bool := do
  if !path.isPossible then throw .impossiblePath
  match contents with
  | .error e =>
    Console.complain (s!"Error: cannot read {path.text}: " ++ e.message path ++ "\n")
    return false
  | .ok bytes =>
    match decode? bytes with
    | none => throw .undecodable
    | some source =>
      match ← Console.unit (·.eval source) with
      | .ok (.failed fault) =>
        Console.complain (fault.inspect ++ "\n")
        return false
      | .ok _ => return true
      | .error (.mistakes diagnostics) =>
        Console.complain (mistakesText diagnostics)
        return false
      | .error (.expansion fault) =>
        Console.complain (fault.report ++ "\n")
        return false
      | .error (.halted halt) => throw (.halted halt)

/-- Run files one after the other, as long as all goes well. -/
def runFiles (read : FilePath → Except FileError (List UInt8)) : List FilePath → Front Bool
  | [] => return true
  | path :: paths => do
    if ← runFile path (read path) then runFiles read paths else return false

/-- The files to run: the prelude that the arguments or else the settings name, and the file. -/
def scripts (settings : Settings) (prelude? file? : Option String) : List FilePath :=
  ((prelude?.map FilePath.ofString).or settings.prelude?).toList ++
    (file?.map FilePath.ofString).toList

/-! ## Runs -/

/-- What a run needs from outside. -/
structure Surroundings where
  environment : Variables
  read : FilePath → Except FileError (List UInt8)
  input : String

/-- Run the files, and prompt for lines behind the prelude if no file is named. -/
def session (s : Surroundings) (settings : Settings) (prelude? file? : Option String) :
    Front Bool := do
  let good ← runFiles s.read (scripts settings prelude? file?)
  if good && file?.isNone then
    Console.write banner
    Repl.start settings.prompt s.input
  return good

/-- What a run comes to. -/
structure Run where
  exit : Except Break Nat
  stdout : Text
  stderr : Text

/-- A run of the command. -/
def run (s : Surroundings) (arguments : List String) : Run :=
  match Invocation.ofArguments arguments with
  | .error e => ⟨.ok 2, "", refusal e⟩
  | .ok .help => ⟨.ok 0, help, ""⟩
  | .ok .version => ⟨.ok 0, versionText, ""⟩
  | .ok (.run prelude? file?) =>
    let settings := Settings.ofVariables s.environment
    let console := Console.ofSession (Session.start settings.recursionLimit)
    match (session s settings prelude? file?).run console with
    | .ok good c => ⟨.ok (if good then 0 else 1), c.stdout, c.stderr settings.isVerbose⟩
    | .error e c => ⟨.error e, c.stdout, c.stderr settings.isVerbose⟩

end CommandLine

end MonkeyLang
