import MonkeyLang.Fault
import MonkeyLang.HashKey
import MonkeyLang.Node.Render

/-!
# Values

What programs compute with. Arrays, hashes, functions, quotes and macros have an identity besides
their content: each one that is made gets a serial number of its own, and `==` compares these. Null
and the truth values have an identity, too: there is one null and one of each truth value for all to
share, and to come to another one with the same content would be to come to another value.

* `Value.kind`, `Value.isTruthy`, `Value.hashKey?` classify values.
* `Value.same` is the equality that `==` decides for all but strings.
-/

namespace MonkeyLang

/-- The number of a scope in the store. -/
abbrev ScopeId := Nat

/-- Which one a null or a truth value is: the one that all share, or some other one. -/
inductive Instance where
  | shared
  | other (number : Nat)
deriving DecidableEq, Repr

/-- A value. -/
inductive Value where
  | null (which : Instance := .shared)
  | int (value : Int)
  | bool (value : Bool) (which : Instance := .shared)
  | str (value : Text)
  | array (serial : Nat) (elements : List Value)
  /-- The entries in order of insertion: digest, key, value. -/
  | hash (serial : Nat) (entries : List (HashKey × Value × Value))
  | function (serial : Nat) (parameters : List Node) (body : Node) (scope : ScopeId)
  | builtin (function : Builtin)
  /-- A piece of program that is not evaluated. -/
  | quote (serial : Nat) (node : Node)
  | macroValue (serial : Nat) (parameters : List Node) (body : Node) (scope : ScopeId)
  /-- A fault put in the place of a value from outside. No program computes one. -/
  | error (fault : Fault)
deriving Repr

namespace Value

instance : Inhabited Value := ⟨null⟩

/-- The kind of a value. -/
def kind : Value → Kind
  | null _ => .null
  | int _ => .integer
  | bool _ _ => .boolean
  | str _ => .string
  | array _ _ => .array
  | hash _ _ => .hash
  | function _ _ _ _ => .function
  | builtin _ => .builtin
  | quote _ _ => .quote
  | macroValue _ _ _ _ => .macroValue
  | error _ => .error

/-- All values count as true but the shared `false` and the shared null. -/
def isTruthy : Value → Bool
  | null .shared | bool false .shared => false
  | _ => true

/-- The digest of a value that may be a key of a hash. A text without a UTF-8 form has none. -/
def hashKey? : Value → Option HashKey
  | int n => some (.integer n)
  | bool b _ => some (.boolean b)
  | str s => HashKey.ofText? s
  | _ => none

/-- Are two values the same one? Integers are told apart by content, and all others by identity: the
number that a value has been given when it was made, and for null and the truth values, which one it
is. A truth value that all share is another one for `true` and for `false`. -/
def same : Value → Value → Bool
  | null i, null j => i == j
  | int a, int b => a == b
  | bool a i, bool b j => a == b && i == j
  | array i _, array j _ | hash i _, hash j _ | function i _ _ _, function j _ _ _
  | quote i _, quote j _ | macroValue i _ _ _, macroValue j _ _ _ => i == j
  | builtin a, builtin b => a == b
  | _, _ => false

end Value

end MonkeyLang
