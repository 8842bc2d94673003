import MonkeyLang.Console
import MonkeyLang.Text.Blank
import MonkeyLang.Text.Lines

/-!
# The prompt

At the prompt each line is a unit of source. Its result is shown, unless it ends with a definition;
a line that is refused is reported and forgotten.
-/

namespace MonkeyLang

namespace Repl

/-- Evaluate a line and show what it comes to. -/
def line (text : Text) : Front Unit := do
  if Text.isBlankLine text then return ()
  else match ← Console.unit (·.run text) with
    | .ok answer =>
      if answer.silent then return ()
      else Console.write ((← Console.inspect answer.outcome) ++ "\n")
    | .error (.mistakes diagnostics) => Console.write (mistakesText diagnostics)
    | .error (.expansion fault) => do
      Console.put (.log (.expansionAborted fault.message))
      Console.write (fault.report ++ "\n")
    | .error (.halted halt) => throw (.halted halt)

/-- Prompt for lines until there are no more. -/
def lines (prompt : Text) : List Text → Front Unit
  | [] => Console.write prompt
  | text :: texts => do
    Console.write prompt
    line text
    lines prompt texts

/-- Prompt for the lines of a text. -/
def start (prompt input : Text) : Front Unit :=
  lines prompt ((Text.promptLines input.toList).map Text.ofList)

end Repl

end MonkeyLang
