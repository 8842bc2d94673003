import Mathlib
import MonkeyLang.Expansion
import MonkeyLang.Proofs.Machine.Runs
import MonkeyLang.Proofs.Node.Erase

/-!
# Arithmetic

Arithmetic expressions are made of natural numbers, the minus sign and the four operations between
two operands. What such an expression denotes is said in terms of integers only: a quotient is the
one whose remainder is smaller than the divisor and has the sign of the dividend. A division by
zero anywhere in the expression leaves it without a value.

* `Arithmetic.Denotes` and `Arithmetic.DividesByZero` are these notions.
* `Arithmetic.ends_evaluate`: evaluation comes to the value or to the fault, unless it is too deep,
  and leaves the machine as it is.
* `Arithmetic.transformM_eq`: a transformation that minds calls only leaves the expression alone.
-/

namespace MonkeyLang

/-! ## Expressions -/

/-- An operation between two integers. -/
inductive Arithmetic.Operation where
  | sum | difference | product | quotient
deriving DecidableEq, Repr

/-- An arithmetic expression. -/
inductive Arithmetic where
  | literal (n : Nat)
  | negative (e : Arithmetic)
  | combined (op : Arithmetic.Operation) (left right : Arithmetic)
deriving DecidableEq, Repr

namespace Arithmetic

/-- The operator of an operation. -/
def Operation.symbol : Operation → Text
  | sum => "+"
  | difference => "-"
  | product => "*"
  | quotient => "/"

/-- The syntax tree of an expression. -/
def node : Arithmetic → Node
  | literal n => .int none n
  | negative e => .unary none "-" e.node
  | combined op left right => .binary none left.node op.symbol right.node

/-- How many nodes of the syntax tree stand inside each other. -/
def height : Arithmetic → Nat
  | literal _ => 1
  | negative e => e.height + 1
  | combined _ left right => max left.height right.height + 1

/-! ## Values -/

/-- What an operation makes of two integers. The remainder of a division is smaller than the
divisor, and is zero or has the sign of the dividend. -/
def Operation.Gives : Operation → Int → Int → Int → Prop
  | sum, a, b, v => v = a + b
  | difference, a, b, v => v = a - b
  | product, a, b, v => v = a * b
  | quotient, a, b, v =>
    ∃ r : Int, a = v * b + r ∧ r.natAbs < b.natAbs ∧ (r = 0 ∨ r.sign = a.sign)

/-- The value of an expression. -/
inductive Denotes : Arithmetic → Int → Prop
  | literal {n : Nat} : Denotes (literal n) n
  | negative {e : Arithmetic} {v : Int} : Denotes e v → Denotes (negative e) (-v)
  | combined {op : Operation} {left right : Arithmetic} {a b v : Int} :
    Denotes left a → Denotes right b → op.Gives a b v → Denotes (combined op left right) v

/-- Some division in the expression has a divisor of value zero. -/
inductive DividesByZero : Arithmetic → Prop
  | here {left right : Arithmetic} : Denotes right 0 → DividesByZero (combined .quotient left right)
  | negative {e : Arithmetic} : DividesByZero e → DividesByZero (negative e)
  | left {op : Operation} {left right : Arithmetic} :
    DividesByZero left → DividesByZero (combined op left right)
  | right {op : Operation} {left right : Arithmetic} :
    DividesByZero right → DividesByZero (combined op left right)

namespace Operation

/-- Division drops the fraction. -/
theorem gives_quotient_iff {a b v : Int} : quotient.Gives a b v ↔ b ≠ 0 ∧ v = a.tdiv b := by
  constructor
  · rintro ⟨r, whole, small, sign⟩
    have nonzero : b ≠ 0 := by
      rintro rfl
      exact Nat.not_lt_zero _ small
    have sum : r + b * v = a := by
      rw [whole, Int.mul_comm, Int.add_comm]
    refine ⟨nonzero, ?_⟩
    rcases Int.le_total 0 a with nonneg | nonpos
    · have remainder : 0 ≤ r := by
        rcases sign with rfl | same
        · exact Int.le_refl 0
        · rw [← Int.sign_nonneg_iff, same, Int.sign_nonneg_iff]
          exact nonneg
      exact ((Int.tdiv_tmod_unique nonneg nonzero).2 ⟨sum, remainder, by omega⟩).1.symm
    · have remainder : r ≤ 0 := by
        rcases sign with rfl | same
        · exact Int.le_refl 0
        · rw [← Int.sign_nonpos_iff, same, Int.sign_nonpos_iff]
          exact nonpos
      exact ((Int.tdiv_tmod_unique' nonpos nonzero).2 ⟨sum, by omega, remainder⟩).1.symm
  · rintro ⟨nonzero, rfl⟩
    refine ⟨a.tmod b, ?_, ?_, ?_⟩
    · rw [Int.mul_comm, Int.mul_tdiv_add_tmod]
    · rw [Int.natAbs_tmod]
      exact Nat.mod_lt _ (Int.natAbs_pos.2 nonzero)
    · by_cases divides : b ∣ a
      · exact .inl (Int.tmod_eq_zero_of_dvd divides)
      · exact .inr (by rw [Int.sign_tmod, if_neg divides])

/-- An operation gives at most one value. -/
theorem Gives.unique {op : Operation} {a b v w : Int} (hv : op.Gives a b v)
    (hw : op.Gives a b w) : v = w := by
  cases op with
  | sum | difference | product => exact hv.trans hw.symm
  | quotient => exact (gives_quotient_iff.1 hv).2.trans (gives_quotient_iff.1 hw).2.symm

/-- The operator does what the operation gives. -/
theorem Gives.integer_eq {op : Operation} {a b v : Int} (h : op.Gives a b v) :
    Operator.integer op.symbol a b = .ok (.int v) := by
  cases op with
  | sum | difference | product =>
      cases h
      rfl
  | quotient =>
      obtain ⟨nonzero, rfl⟩ := gives_quotient_iff.1 h
      exact if_neg nonzero

/-- Only a division by zero gives nothing. -/
theorem gives_or_zero (op : Operation) (a b : Int) :
    (∃ v, op.Gives a b v) ∨ op = .quotient ∧ b = 0 := by
  cases op with
  | sum | difference | product => exact .inl ⟨_, rfl⟩
  | quotient =>
      by_cases zero : b = 0
      · exact .inr ⟨rfl, zero⟩
      · exact .inl ⟨_, gives_quotient_iff.2 ⟨zero, rfl⟩⟩

end Operation

/-- An expression has at most one value. -/
theorem Denotes.unique {e : Arithmetic} {v w : Int} (hv : e.Denotes v) (hw : e.Denotes w) :
    v = w := by
  induction hv generalizing w with
  | literal =>
      cases hw
      rfl
  | negative _ ih =>
      cases hw with
      | negative hw => rw [ih hw]
  | combined _ _ gives left right =>
      cases hw with
      | combined hleft hright gives' =>
          cases left hleft
          cases right hright
          exact gives.unique gives'

/-- Nothing is divided by zero in an expression that has a value. -/
theorem Denotes.not_dividesByZero {e : Arithmetic} {v : Int} (h : e.Denotes v) :
    ¬ e.DividesByZero := by
  induction h with
  | literal => exact nofun
  | negative _ ih =>
      rintro (_ | inside)
      exact ih inside
  | combined _ denotes gives left right =>
      intro divides
      cases divides with
      | here zero =>
          cases denotes.unique zero
          exact (Operation.gives_quotient_iff.1 gives).1 rfl
      | left inside => exact left inside
      | right inside => exact right inside

/-! ## Evaluation -/

/-- How the evaluation of an expression ends: with its value, with the fault, or too deep. -/
inductive Ends (e : Arithmetic) (depth : Nat) (m : Machine) :
    EStateM.Result Exit Machine Value → Prop
  | value {v : Int} : e.Denotes v → Ends e depth m (.ok (.int v) m)
  | fault : e.DividesByZero → Ends e depth m (.error (.failed .divisionByZero) m)
  | tooDeep : depth < e.height → Ends e depth m (.error (.halted .overflow) m)

/-- The tree is that of the expression, whatever tokens it carries. -/
def Is (node : Node) (e : Arithmetic) : Prop := node.erase = e.node

theorem Is.literal {node : Node} {n : Nat} (h : Is node (literal n)) :
    ∃ t, node = .int t n := by
  cases node with
  | int t value =>
      obtain ⟨-, rfl⟩ := Node.int.inj h
      exact ⟨t, rfl⟩
  | _ => cases h

theorem Is.negative {node : Node} {e : Arithmetic} (h : Is node (negative e)) :
    ∃ t operand, node = .unary t "-" operand ∧ Is operand e := by
  cases node with
  | unary t op operand =>
      obtain ⟨-, rfl, inside⟩ := Node.unary.inj h
      exact ⟨t, operand, rfl, inside⟩
  | _ => cases h

theorem Is.combined {node : Node} {op : Operation} {left right : Arithmetic}
    (h : Is node (combined op left right)) :
    ∃ t l r, node = .binary t l op.symbol r ∧ Is l left ∧ Is r right := by
  cases node with
  | binary t l symbol r =>
      obtain ⟨-, first, rfl, second⟩ := Node.binary.inj h
      exact ⟨t, l, r, rfl, first, second⟩
  | _ => cases h

theorem Ends.negative {e : Arithmetic} {depth : Nat} {m : Machine} {c : Eval Value}
    (ended : e.Ends depth m (c.run m)) :
    (negative e).Ends (depth + 1) m
      ((c >>= fun v => Eval.ofExcept (Operator.unary "-" v)).run m) := by
  generalize ran : c.run m = result at ended
  cases ended with
  | value denotes =>
      rw [run_bind_of_ok ran]
      exact .value (.negative denotes)
  | fault divides =>
      rw [run_bind_of_exit ran]
      exact .fault (.negative divides)
  | tooDeep deep =>
      rw [run_bind_of_exit ran]
      exact .tooDeep (Nat.succ_lt_succ deep)

/-- An operation between two values gives one, unless it divides by zero. -/
theorem Ends.operation {left right : Arithmetic} {a b : Int} (onLeft : left.Denotes a)
    (onRight : right.Denotes b) (op : Operation) (depth : Nat) (m : Machine) :
    (combined op left right).Ends depth m
      ((Eval.ofExcept (Operator.integer op.symbol a b)).run m) := by
  rcases op.gives_or_zero a b with ⟨v, gives⟩ | ⟨rfl, rfl⟩
  · rw [gives.integer_eq]
    exact .value (.combined onLeft onRight gives)
  · exact .fault (.here onRight)

/-- The left operand is evaluated first, and only if it has a value the right one. -/
theorem Ends.combined {left right : Arithmetic} {depth : Nat} {m : Machine} {c c' : Eval Value}
    (op : Operation) (onLeft : left.Ends depth m (c.run m))
    (onRight : right.Ends depth m (c'.run m)) :
    (combined op left right).Ends (depth + 1) m
      ((c >>= fun a => c' >>= fun b => Eval.ofExcept (Operator.binary op.symbol a b)).run m) := by
  generalize ranLeft : c.run m = first at onLeft
  generalize ranRight : c'.run m = second at onRight
  cases onLeft with
  | fault divides =>
      rw [run_bind_of_exit ranLeft]
      exact .fault (.left divides)
  | tooDeep deep =>
      rw [run_bind_of_exit ranLeft]
      exact .tooDeep (Nat.succ_lt_succ (lt_max_of_lt_left deep))
  | value denotesLeft =>
      rw [run_bind_of_ok ranLeft]
      cases onRight with
      | fault divides =>
          rw [run_bind_of_exit ranRight]
          exact .fault (.right divides)
      | tooDeep deep =>
          rw [run_bind_of_exit ranRight]
          exact .tooDeep (Nat.succ_lt_succ (lt_max_of_lt_right deep))
      | value denotesRight =>
          rw [run_bind_of_ok ranRight]
          exact operation denotesLeft denotesRight op _ m

/-- Evaluation comes to the value of the expression, or to the fault if it divides by zero, and does
nothing else. -/
theorem ends_evaluate {e : Arithmetic} {node : Node} (is : Is node e) (depth : Nat)
    (scope : ScopeId) (m : Machine) : e.Ends depth m ((evaluate depth node scope).run m) := by
  induction e generalizing node depth with
  | literal n =>
      obtain ⟨t, rfl⟩ := is.literal
      cases depth with
      | zero => exact .tooDeep Nat.one_pos
      | succ depth => exact .value .literal
  | negative e ih =>
      obtain ⟨t, operand, rfl, inside⟩ := is.negative
      cases depth with
      | zero => exact .tooDeep (Nat.succ_pos _)
      | succ depth => exact (ih inside depth).negative
  | combined op left right ihLeft ihRight =>
      obtain ⟨t, l, r, rfl, first, second⟩ := is.combined
      cases depth with
      | zero => exact .tooDeep (Nat.succ_pos _)
      | succ depth => exact (ihLeft first depth).combined op (ihRight second depth)

/-! ## Transformations -/

section

variable {m : Type → Type} [Monad m] [LawfulMonad m] {f : Node → m Node}
  (others : ∀ node, (∀ t callee arguments, node ≠ .call t callee arguments) → f node = pure node)

include others

/-- A transformation that changes nothing but calls leaves an expression alone. -/
theorem transformM_eq {e : Arithmetic} {node : Node} (is : Is node e) :
    node.transformM f = pure node := by
  induction e generalizing node with
  | literal n =>
      obtain ⟨t, rfl⟩ := is.literal
      rw [Node.transformM, Node.belowM, pure_bind]
      exact others _ nofun
  | negative e ih =>
      obtain ⟨t, operand, rfl, inside⟩ := is.negative
      have below := ih inside
      rw [Node.transformM] at below ⊢
      rw [Node.belowM]
      simp only [← bind_assoc, below, pure_bind]
      exact others _ nofun
  | combined op left right ihLeft ihRight =>
      obtain ⟨t, l, r, rfl, first, second⟩ := is.combined
      have belowLeft := ihLeft first
      have belowRight := ihRight second
      rw [Node.transformM] at belowLeft belowRight ⊢
      rw [Node.belowM]
      simp only [← bind_assoc, belowLeft, belowRight, pure_bind]
      exact others _ nofun

/-- It leaves a program with nothing but the expression alone, too. -/
theorem transformM_program_eq {e : Arithmetic} {node : Node} (is : Is node e)
    (t : Option Token) :
    (Node.program [.exprStmt t node]).transformM f = pure (.program [.exprStmt t node]) := by
  have inside := transformM_eq others is
  have statement : (Node.exprStmt t node).transformM f = pure (.exprStmt t node) := by
    rw [Node.transformM] at inside ⊢
    rw [Node.belowM]
    simp only [← bind_assoc, inside, pure_bind]
    exact others _ nofun
  rw [Node.transformM] at statement ⊢
  rw [Node.belowM, Node.belowAllM, Node.belowAllM]
  simp only [← bind_assoc, statement, pure_bind]
  exact others _ nofun

end

end Arithmetic

end MonkeyLang
