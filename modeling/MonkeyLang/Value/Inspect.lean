import MonkeyLang.Decimal
import MonkeyLang.Halt
import MonkeyLang.Node.Pieces
import MonkeyLang.Text.Quoted
import MonkeyLang.Value

/-!
# The texts of values

Two texts: `Value.inspect` shows a value to the user of a program, `Value.debug` shows its
structure. The program that a value holds is shown with the pieces it refers to. There is no text
for an integer with too many digits, nor for a program without end.
-/

namespace MonkeyLang

open Node (commaSep)

/-- The text of a fault where a value is shown. -/
def Fault.inspect (fault : Fault) : Text := "ERROR: " ++ fault.message

/-- The digits of an integer. -/
def Decimal.write (n : Int) : Except Halt Text :=
  match write? n with
  | some text => .ok text
  | none => .error .overlong

namespace Pieces

/-- The text of a tree with the pieces in their places. -/
def text (p : Pieces) (node : Node) : Except Halt Text :=
  match p.text? node with
  | some text => .ok text
  | none => .error .overflow

/-- A function or a macro: its parameters in one line, its body in lines of their own. -/
def codeText (p : Pieces) (keyword : Text) (parameters : List Node) (body : Node) :
    Except Halt Text := do
  let parameters ← parameters.mapM p.text
  let body ← p.text body
  return keyword ++ "(" ++ commaSep parameters ++ ") \x7b\n" ++ body ++ "\n\x7d"

end Pieces

namespace Value

/-- Strings inside other values have quotes around them. -/
def withQuotes : Value → Text → Text
  | str _, text => "\"" ++ text ++ "\""
  | _, text => text

variable (pieces : Pieces)

mutual

/-- The text that a user sees. -/
def inspect : Value → Except Halt Text
  | null _ => return "null"
  | int n => Decimal.write n
  | bool b _ => return if b then "true" else "false"
  | str s => return s
  | array _ elements => do return "[" ++ commaSep (← inspectElements elements) ++ "]"
  | hash _ entries => do return "\x7b" ++ commaSep (← inspectEntries entries) ++ "\x7d"
  | function _ parameters body _ => pieces.codeText "fn" parameters body
  | builtin b => return "builtin function " ++ b.name
  | quote _ node => do return "QUOTE(" ++ (← pieces.text node) ++ ")"
  | macroValue _ parameters body _ => pieces.codeText "macro" parameters body
  | error fault => return fault.inspect

/-- The texts of the elements of an array. -/
def inspectElements : List Value → Except Halt (List Text)
  | [] => return []
  | v :: vs => do
    let text ← inspect v
    return withQuotes v text :: (← inspectElements vs)

/-- The texts of the entries of a hash. -/
def inspectEntries : List (HashKey × Value × Value) → Except Halt (List Text)
  | [] => return []
  | (_, key, value) :: entries => do
    let keyText ← inspect key
    let valueText ← inspect value
    let others ← inspectEntries entries
    return (withQuotes key keyText ++ ": " ++ withQuotes value valueText) :: others

end

mutual

/-- The text that shows how a value is built. -/
def debug : Value → Except Halt Text
  | null _ => return "NULL"
  | int n => do return "Integer(" ++ (← Decimal.write n) ++ ")"
  | bool b _ => return if b then "Boolean(True)" else "Boolean(False)"
  | str s => return "String(" ++ Text.quoted s ++ ")"
  | array _ elements => do return "Array([" ++ commaSep (← debugAll elements) ++ "])"
  | hash serial entries => do return "Hash(" ++ (← inspect pieces (hash serial entries)) ++ ")"
  | builtin b => return "Builtin(" ++ Text.quoted b.name ++ ")"
  | error fault => return "Error(" ++ Text.quoted fault.message ++ ")"
  | value => inspect pieces value

/-- The texts that show how some values are built. -/
def debugAll : List Value → Except Halt (List Text)
  | [] => return []
  | v :: vs => do
    let text ← debug v
    return text :: (← debugAll vs)

end

end Value

end MonkeyLang
