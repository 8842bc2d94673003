import MonkeyLang.Builtin
import MonkeyLang.Machine

/-!
# Calls of builtin functions

Arrays are never changed: `rest` and `push` make new ones.
-/

namespace MonkeyLang

namespace Builtin

/-- The length of a string in characters, or of an array. -/
def length : Value → Except Fault Value
  | .str s => .ok (.int s.length)
  | .array _ elements => .ok (.int elements.length)
  | v => .error (.lengthOf v.kind)

/-- The elements of the array that a builtin function needs. -/
def elementsFor (b : Builtin) : Value → Except Fault (List Value)
  | .array _ elements => .ok elements
  | v => .error (.notArray b v.kind)

/-- The only argument. -/
def single : List Value → Except Fault Value
  | [v] => .ok v
  | vs => .error (.builtinArity 1 vs.length)

/-- The elements of the array that is the only argument. -/
def singleArray (b : Builtin) (arguments : List Value) : Eval (List Value) := do
  let v ← Eval.ofExcept (single arguments)
  Eval.ofExcept (elementsFor b v)

/-- Call a builtin function. -/
def call (b : Builtin) (arguments : List Value) : Eval Value :=
  match b with
  | len => do Eval.ofExcept (length (← Eval.ofExcept (single arguments)))
  | first => do return (← singleArray b arguments).headD .null
  | last => do return (← singleArray b arguments).getLastD .null
  | rest => do
    match ← singleArray b arguments with
    | [] => return .null
    | _ :: elements => Eval.newArray elements
  | push =>
    match arguments with
    | [v, element] => do
      let elements ← Eval.ofExcept (elementsFor b v)
      Eval.newArray (elements ++ [element])
    | vs => Eval.fail (.builtinArity 2 vs.length)
  | puts => do
    arguments.forM Eval.print
    return .null

end Builtin

end MonkeyLang
