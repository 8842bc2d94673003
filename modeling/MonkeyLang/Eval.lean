import MonkeyLang.Builtin.Call
import MonkeyLang.Operator
import MonkeyLang.Quote

/-!
# Evaluation

`evaluate depth node scope` is the value of a tree in a scope, where at most `depth` evaluations
stand inside each other. The forms are written over a function `run` that evaluates the trees
inside them; `evaluate` ties the knot. `depth` is how deep pieces of program can stand inside each
other in a quotation.

Operands, arguments, elements and pairs are evaluated from left to right. A fault or a return in
any of them ends the form around it, so that nothing behind it is evaluated.
-/

namespace MonkeyLang

namespace Eval

/-! ## Names -/

/-- The value of a name: its innermost binding, or else a builtin function. A fault that is bound
to the name comes up again. -/
def name (scope : ScopeId) (name : Text) : Eval Value := do
  match (← get).store.lookup scope name with
  | some (.error fault) => fail fault
  | some value => return value
  | none =>
    match Builtin.ofName? name with
    | some b => return .builtin b
    | none => fail (.unbound name)

section Forms

variable (run : Node → Eval Value)

/-! ## Sequences -/

/-- The value of the last statement, null if there is none. -/
def sequence : List Node → Eval Value
  | [] => return .null
  | [statement] => run statement
  | statement :: statements => do
    let _ ← run statement
    sequence statements

/-- The values of some trees. -/
def values : List Node → Eval (List Value)
  | [] => return []
  | node :: nodes => do
    let value ← run node
    let others ← values nodes
    return value :: others

/-- The entries of a hash, of which the last with a digest counts. The key of a pair is tested
before its value is evaluated. -/
def entries (done : Assoc HashKey (Value × Value)) :
    List (Node × Node) → Eval (Assoc HashKey (Value × Value))
  | [] => return done
  | (keyNode, valueNode) :: pairs => do
    let key ← run keyNode
    match key.hashKey? with
    | none => throw (Operator.undigested key)
    | some digest =>
      let value ← run valueNode
      entries (done.insert digest (key, value)) pairs

/-! ## Conditionals and calls -/

/-- The branch of a conditional that its condition chooses. -/
def choose (condition consequence alternative : Node) : Eval Value := do
  if (← run condition).isTruthy then run consequence
  else if alternative.isMissing then return .null
  else run alternative

end Forms

/-- The bindings of a call: the parameters with their arguments. -/
def arguments (parameters : List Node) (values : List Value) : Assoc Text Value :=
  Assoc.ofList ((parameters.map Node.boundName).zip values)

/-- Apply a value to arguments. The body of a function is evaluated in a new scope inside the one
the function was made in. -/
def apply (run : Node → ScopeId → Eval Value) (callee : Value) (values : List Value) :
    Eval Value :=
  match callee with
  | .function _ parameters body scope => do
    if parameters.length ≠ values.length then fail (.arity parameters.length values.length)
    else
      let inner ← newScope scope (arguments parameters values)
      catchReturn (run body inner)
  | .builtin b => b.call values
  | v => fail (.notCallable v.kind)

/-- A call of a tree with argument trees. -/
def call (depth : Nat) (run : Node → ScopeId → Eval Value) (scope : ScopeId) (callee : Node)
    (arguments : List Node) : Eval Value := do
  if callee.isIdent Quote.quoteName then Quote.quote (run · scope) depth arguments
  else
    let function ← run callee scope
    let values ← values (run · scope) arguments
    apply run function values

/-- The value of a tree in terms of the values of the trees inside it. -/
def form (depth : Nat) (run : Node → ScopeId → Eval Value) (node : Node) (scope : ScopeId) :
    Eval Value :=
  match node with
  | .missing => fail .missingNode
  | .program statements => catchReturn (sequence (run · scope) statements)
  | .block _ statements => sequence (run · scope) statements
  | .letStmt _ name value => do
    let value ← run value scope
    bind scope name.text value
    return .null
  | .returnStmt _ value => do
    let value ← run value scope
    throw (.returned value)
  | .exprStmt _ value => run value scope
  | .ident _ text => name scope text
  | .int _ value => return .int value
  | .bool _ value => return .bool value
  | .str _ value => return .str value
  | .array _ elements => do newArray (← values (run · scope) elements)
  | .hash _ pairs => do
    let entries ← entries (run · scope) [] pairs
    return .hash (← newSerial) entries
  | .unary _ op operand => do
    let operand ← run operand scope
    ofExcept (Operator.unary op operand)
  | .binary _ left op right => do
    let left ← run left scope
    let right ← run right scope
    ofExcept (Operator.binary op left right)
  | .ifElse _ condition consequence alternative =>
    choose (run · scope) condition consequence alternative
  | .fnLit _ parameters body => do return .function (← newSerial) parameters body scope
  | .macroLit _ _ _ => fail .misplacedMacro
  | .call _ callee arguments => call depth run scope callee arguments
  | .index _ container position => do
    let container ← run container scope
    let position ← run position scope
    ofExit (Operator.index container position)
  | .piece id => do run (← piece id) scope

end Eval

/-- The value of a tree in a scope, with at most `depth` evaluations inside each other. -/
def evaluate (depth : Nat) (node : Node) (scope : ScopeId) : Eval Value :=
  match depth with
  | 0 => throw (.halted .overflow)
  | depth + 1 => Eval.form depth (evaluate depth) node scope

end MonkeyLang
