import MonkeyLang.Builtin
import MonkeyLang.Kind
import MonkeyLang.Text

/-!
# Faults

What can go wrong while a program runs. A fault ends the evaluation of the program unit; nothing
in a program can catch it.
-/

namespace MonkeyLang

/-- The cause of a failed evaluation. -/
inductive Fault where
  /-- No binding and no builtin function has this name. -/
  | unbound (name : Text)
  | unaryOperator (operator : Text) (operand : Kind)
  | binaryOperator (left : Kind) (operator : Text) (right : Kind)
  | mismatch (left : Kind) (operator : Text) (right : Kind)
  | divisionByZero
  | notCallable (kind : Kind)
  /-- A function called with the wrong number of arguments. -/
  | arity (want got : Nat)
  /-- A builtin function called with the wrong number of arguments. -/
  | builtinArity (want got : Nat)
  | lengthOf (kind : Kind)
  /-- A builtin function that needs an array got something else. -/
  | notArray (builtin : Builtin) (kind : Kind)
  | notIndexable (kind : Kind)
  | notHashable (kind : Kind)
  | quoteArity (got : Nat)
  | unquoteArity (got : Nat)
  /-- A value that no literal denotes. -/
  | notQuotable (kind : Kind)
  | misplacedMacro
  /-- A hole in the tree, left by a mistake in the text. -/
  | missingNode
  | stackOverflow
deriving DecidableEq, Repr

/-- The wording of a fault. -/
def Fault.message : Fault → Text
  | unbound name => "identifier not found: " ++ name
  | unaryOperator op operand => "unknown operator: " ++ op ++ operand.name
  | binaryOperator left op right =>
    s!"unknown operator: {left.name} " ++ op ++ " " ++ right.name
  | mismatch left op right => s!"type mismatch: {left.name} " ++ op ++ " " ++ right.name
  | divisionByZero => "division by zero"
  | notCallable kind => s!"not a function: {kind.name}"
  | arity want got => s!"wrong number of arguments: want={want}, got={got}"
  | builtinArity want got => s!"wrong number of arguments. got={got}, want={want}"
  | lengthOf kind => s!"argument to `len` not supported, got {kind.name}"
  | notArray builtin kind => s!"argument to `{builtin.name}` must be ARRAY, got {kind.name}"
  | notIndexable kind => s!"index operator not supported: {kind.name}"
  | notHashable kind => s!"unusable as hash key: {kind.name}"
  | quoteArity got => s!"wrong number of arguments to quote: want=1, got={got}"
  | unquoteArity got => s!"wrong number of arguments to unquote: want=1, got={got}"
  | notQuotable kind => s!"unquote: cannot convert {kind.name} to an AST node"
  | misplacedMacro => "macro literal is only allowed in a top-level let statement"
  | missingNode => "cannot evaluate node: NoneType"
  | stackOverflow => "stack overflow"

end MonkeyLang
