import MonkeyLang.CommandLine

/-!
# The command at a terminal

Gives a run of the command its variables, its files and the lines of its input, and writes what the
run puts out as it comes. What is run, and what that comes to, is said in `MonkeyLang.CommandLine`.
-/

namespace MonkeyLang

namespace CommandLine

/-- The variables of the environment that count for a run. -/
def readVariables : IO Variables := do
  let names := ["MONKEY_PROMPT", "MONKEY_PRELUDE_PATH", "LOGLEVEL", "MONKEY_RECURSION_LIMIT"]
  names.filterMapM fun name => do return (← IO.getEnv name).map fun value => (name, value)

/-- What is wrong with a file, by what the system says of it. -/
def fileErrorOf : IO.Error → FileError
  | .noFileOrDirectory _ _ _ => .notFound
  | .inappropriateType _ code _ => if code = 21 then .isDirectory else .notDirectory
  | .invalidArgument _ _ _ => .nameTooLong
  | .permissionDenied _ _ _ => ⟨13, "Permission denied"⟩
  | _ => ⟨5, "Input/output error"⟩

/-- The bytes of a file. -/
def readFile (path : FilePath) : IO (Except FileError (List UInt8)) := do
  try return .ok (← IO.FS.readBinFile path.text).toList
  catch e => return .error (fileErrorOf e)

/-- The characters of a text. Sources, variables and arguments are strings here, so that there is
nothing else in a text that a run puts out. -/
def stringOf (t : Text) : String := String.ofList t.chars

/-- Write what the console holds. -/
def showWritten (verbose : Bool) (c : Console) : IO Console := do
  for output in c.written do
    match output with
    | .out text => IO.print (stringOf text)
    | .err text => IO.eprint (stringOf text)
    | .log remark => if verbose then IO.eprintln (stringOf remark.text)
  (← IO.getStdout).flush
  return c.clear

/-- Take a step and write what it puts out. A break of the run is told and ends it. -/
def perform {α : Type} (verbose : Bool) (c : Console) (step : Front α) :
    IO (Option α × Console) := do
  match step.run c with
  | .ok a c => return (some a, ← showWritten verbose c)
  | .error e c =>
    let c ← showWritten verbose c
    IO.eprintln s!"monkey: {e.message}"
    return (none, c)

/-- Prompt for lines until the input ends. Tells whether the run came that far. -/
partial def promptLoop (verbose : Bool) (prompt : String) (c : Console) : IO Bool := do
  IO.print prompt
  (← IO.getStdout).flush
  let text ← (← IO.getStdin).getLine
  if text.isEmpty then return true
  match ← perform verbose c (Repl.line text) with
  | (some (), c) => promptLoop verbose prompt c
  | (none, _) => return false

/-- Run the files, prompt behind the prelude if no file is named, and tell the status. -/
def runInvocation (prelude? file? : Option String) : IO UInt32 := do
  let settings := Settings.ofVariables (← readVariables)
  let paths := scripts settings prelude? file?
  let contents ← paths.mapM fun path => do return (path, ← readFile path)
  let read (path : FilePath) := (Assoc.get? path contents).getD (.error .notFound)
  let verbose := settings.isVerbose
  let console := Console.ofSession (Session.start settings.recursionLimit)
  match ← perform verbose console (runFiles read paths) with
  | (some true, console) =>
    if file?.isSome then return 0
    IO.print banner
    return if ← promptLoop verbose settings.prompt console then 0 else 1
  | _ => return 1

/-- Run the command with arguments, and tell the status. -/
def runArguments (arguments : List String) : IO UInt32 := do
  match Invocation.ofArguments arguments with
  | .error e =>
    IO.eprint (stringOf (refusal e))
    return 2
  | .ok .help =>
    IO.print help
    return 0
  | .ok .version =>
    IO.print versionText
    return 0
  | .ok (.run prelude? file?) => runInvocation prelude? file?

end CommandLine

end MonkeyLang

/-- The command. -/
def main (arguments : List String) : IO UInt32 := MonkeyLang.CommandLine.runArguments arguments
