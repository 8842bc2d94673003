import MonkeyLang.Assoc
import MonkeyLang.Machine

/-!
# Operators

What the operators make of evaluated operands. None of them needs or changes the state.
-/

namespace MonkeyLang

namespace Operator

/-- An operator before its operand. -/
def unary (op : Text) (operand : Value) : Except Fault Value :=
  match op.string?, operand with
  | some "!", v => .ok (.bool (! v.isTruthy))
  | some "-", .int n => .ok (.int (-n))
  | _, v => .error (.unaryOperator op v.kind)

/-- An operator between integers. Division drops the fraction. -/
def integer (op : Text) (l r : Int) : Except Fault Value :=
  match op.string? with
  | some "+" => .ok (.int (l + r))
  | some "-" => .ok (.int (l - r))
  | some "*" => .ok (.int (l * r))
  | some "/" => if r = 0 then .error .divisionByZero else .ok (.int (l.tdiv r))
  | some "<" => .ok (.bool (l < r))
  | some ">" => .ok (.bool (r < l))
  | some "==" => .ok (.bool (l == r))
  | some "!=" => .ok (.bool (l != r))
  | _ => .error (.binaryOperator .integer op .integer)

/-- An operator between strings. -/
def string (op : Text) (l r : Text) : Except Fault Value :=
  match op.string? with
  | some "+" => .ok (.str (l ++ r))
  | _ => .error (.binaryOperator .string op .string)

/-- An operator between values of other kinds: only equality is known. -/
def other (op : Text) (l r : Value) : Except Fault Value :=
  match op.string? with
  | some "==" => .ok (.bool (l.same r))
  | some "!=" => .ok (.bool (! l.same r))
  | _ =>
    if l.kind = r.kind then .error (.binaryOperator l.kind op r.kind)
    else .error (.mismatch l.kind op r.kind)

/-- An operator between any two operands. -/
def binary (op : Text) (l r : Value) : Except Fault Value :=
  match l, r with
  | .int l, .int r => integer op l r
  | .str l, .str r => string op l r
  | l, r => other op l r

/-- The element of an array at an index; null where there is none. -/
def element (elements : List Value) (position : Value) : Value :=
  match position with
  | .int n => if n < 0 then .null else elements.getD n.toNat .null
  | _ => .null

/-- The value of a key in a hash; null where there is none. -/
def entry (entries : Assoc HashKey (Value × Value)) (key : HashKey) : Value :=
  match entries.get? key with
  | some (_, value) => value
  | none => .null

/-- How an evaluation ends that needs the digest of a value without one. -/
def undigested : Value → Exit
  | .str _ => .halted .unencodable
  | v => .failed (.notHashable v.kind)

theorem undigested_cases (v : Value) :
    undigested v = .halted .unencodable ∨ undigested v = .failed (.notHashable v.kind) := by
  cases v with
  | str text => exact .inl rfl
  | _ => exact .inr rfl

/-- The part of a container at an index. -/
def index (container position : Value) : Except Exit Value :=
  match container with
  | .array _ elements => .ok (element elements position)
  | .hash _ entries =>
    match position.hashKey? with
    | some key => .ok (entry entries key)
    | none => .error (undigested position)
  | v => .error (.failed (.notIndexable v.kind))

end Operator

end MonkeyLang
