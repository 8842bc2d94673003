import MonkeyLang.Proofs.Evaluation.Arithmetic
import MonkeyLang.Proofs.Parser.RoundTrip
import MonkeyLang.Proofs.Session.Supervised

/-!
# Units of arithmetic

The canonical text of an arithmetic expression is a unit of source. In every session it is read as
the expression again, nothing in it is expanded, and it is evaluated to the value of the expression,
or to the fault if it divides by zero.

* `Arithmetic.Short` says that all numbers can be read.
* `arithmetic_unit_is_exact` is the result.
-/

namespace MonkeyLang

open Session (values macros)

/-- A numeral that is not longer than can be read denotes a number that can be written. -/
theorem Decimal.isOverlong_of_length_repr {n : Nat} (short : n.repr.length ≤ longest) :
    isOverlong n = false := by
  have digits : ∀ c ∈ n.repr.toList, c.isDigit := by
    rw [Nat.toList_repr]
    exact fun c mem => Nat.isDigit_of_mem_toDigits (by decide) (by decide) mem
  have bound := value_lt digits
  rw [value_repr, String.length_toList] at bound
  exact isOverlong_of_lt bound short

namespace Arithmetic

/-- No number has more digits than can be read. -/
def Short : Arithmetic → Prop
  | literal n => n.repr.length ≤ Decimal.longest
  | negative e => e.Short
  | combined _ left right => left.Short ∧ right.Short

/-- The canonical text of an expression. -/
def text (e : Arithmetic) : Text := (Node.program [.exprStmt none e.node]).render

/-! ## Reading -/

theorem fits_node {e : Arithmetic} (short : e.Short) : e.node.fits .expression := by
  induction e with
  | literal n =>
      simp only [node, Node.fits, Bool.and_eq_true, decide_eq_true_eq, Bool.not_eq_true']
      exact ⟨Int.natCast_nonneg n, Decimal.isOverlong_of_length_repr short⟩
  | negative e ih =>
      have known : (Grammar.unaryOperators.lookup ("-" : Text)).isSome := by decide
      simp only [node, Node.fits, Bool.and_eq_true]
      exact ⟨known, ih short⟩
  | combined op left right ihLeft ihRight =>
      have known : (Grammar.binaryOperators.lookup op.symbol).isSome := by cases op <;> decide
      simp only [node, Node.fits, Bool.and_eq_true]
      exact ⟨⟨known, ihLeft short.1⟩, ihRight short.2⟩

theorem isReadable_node (e : Arithmetic) : e.node.isReadable := by
  induction e with
  | literal n => rfl
  | negative e ih => exact ih
  | combined op left right ihLeft ihRight =>
      simp only [node, Node.isReadable, Bool.and_eq_true]
      exact ⟨ihLeft, ihRight⟩

theorem canonical {e : Arithmetic} (short : e.Short) : Node.Canonical [.exprStmt none e.node] where
  fits := by
    simp only [Node.fitsAll, Node.fits, Bool.and_eq_true]
    exact ⟨fits_node short, trivial⟩
  readable := by
    simp only [Node.allReadable, Node.isReadable, Bool.and_eq_true]
    exact ⟨isReadable_node e, trivial⟩
  closed := nofun

theorem is_node (e : Arithmetic) : Is e.node e := by
  unfold Is
  induction e with
  | literal n => rfl
  | negative e ih => rw [node, Node.erase, ih]
  | combined op left right ihLeft ihRight => rw [node, Node.erase, ihLeft, ihRight]

/-- A program with one expression in it that is the same up to tokens. -/
theorem exists_of_erase {program node : Node}
    (h : program.erase = .program [.exprStmt none node]) :
    ∃ t inside, program = .program [.exprStmt t inside] ∧ inside.erase = node := by
  cases program with
  | program ss =>
      have statements := Node.program.inj h
      match ss with
      | [] => cases statements
      | [s] =>
          cases s with
          | exprStmt t inside =>
              obtain ⟨-, same⟩ := Node.exprStmt.inj (List.cons.inj statements).1
              exact ⟨t, inside, rfl, same⟩
          | _ => cases (List.cons.inj statements).1
      | _ :: _ :: _ => cases (List.cons.inj statements).2
  | _ => cases h

/-- The text is read without a mistake as the expression in the place of a statement. -/
theorem parse_text {e : Arithmetic} (short : e.Short) :
    (parse e.text).diagnostics = [] ∧
      ∃ t node, (parse e.text).program = .program [.exprStmt t node] ∧ Is node e := by
  obtain ⟨accepted, same⟩ := Parser.parse_canonical (canonical short)
  refine ⟨List.map_eq_nil_iff.1 accepted, ?_⟩
  have alone : (Node.program [.exprStmt none e.node]).erase =
      .program [.exprStmt none e.node] := by
    simp only [Node.erase, Node.eraseAll, show e.node.erase = e.node from is_node e]
  exact exists_of_erase (same.trans alone)

/-! ## A unit -/

variable {e : Arithmetic} {node : Node} {t : Option Token}

/-- There are no macros in an expression, and no calls of any. -/
theorem run_expandProgram (is : Is node e) (limit : Nat) (m : Machine) :
    (Session.expandProgram limit (.program [.exprStmt t node])).run m =
      .ok (.program [.exprStmt t node]) m := by
  have others (n : Node) (other : ∀ t callee arguments, n ≠ .call t callee arguments) :
      Expansion.step limit macros n = pure n := by
    cases n with
    | call t callee arguments => exact absurd rfl (other t callee arguments)
    | _ => rfl
  have define : (Session.expandProgram limit (.program [.exprStmt t node])).run m =
      (expand limit macros (.program [.exprStmt t node])).run m := rfl
  rw [define, expand, transformM_program_eq others is t]
  rfl

/-- What a unit comes to, and the machine it leaves. A unit that is too deep is a fault with a
remark. -/
inductive UnitEnds (e : Arithmetic) (limit : Nat) (m : Machine) : Outcome → Machine → Prop
  | value {v : Int} : e.Denotes v → UnitEnds e limit m (.value (.int v)) m
  | fault : e.DividesByZero → UnitEnds e limit m (.failed .divisionByZero) m
  | tooDeep : limit < e.height + 2 →
    UnitEnds e limit m (.failed .stackOverflow) (m.remark (.tooDeep limit))

theorem run_evaluateProgram (is : Is node e) (limit : Nat) (m : Machine) :
    ∃ outcome m', e.UnitEnds limit m outcome m' ∧
      (Session.evaluateProgram limit (.program [.exprStmt t node])).run m = .ok outcome m' := by
  unfold Session.evaluateProgram
  rw [run_tryCatch, Expand.run_outcome]
  match limit with
  | 0 => exact ⟨_, _, .tooDeep (by omega), rfl⟩
  | 1 => exact ⟨_, _, .tooDeep (by omega), rfl⟩
  | limit + 2 =>
      have form : (evaluate (limit + 2) (.program [.exprStmt t node]) values).run m =
          (Eval.catchReturn (evaluate limit node values)).run m := rfl
      have ended := ends_evaluate is limit values m
      rw [form, Eval.catchReturn, run_tryCatch]
      generalize (evaluate limit node values).run m = result at ended ⊢
      cases ended with
      | value denotes => exact ⟨_, _, .value denotes, rfl⟩
      | fault divides => exact ⟨_, _, .fault divides, rfl⟩
      | tooDeep deep => exact ⟨_, _, .tooDeep (by omega), rfl⟩

theorem run_answer_text (short : e.Short) (limit : Nat) (m : Machine) :
    ∃ outcome m', e.UnitEnds limit m outcome m' ∧
      (Session.answer limit e.text).run m = .ok ⟨outcome, false⟩ m' := by
  obtain ⟨accepted, t, node, program, is⟩ := parse_text short
  obtain ⟨outcome, m', ends, ran⟩ := run_evaluateProgram is limit m
  refine ⟨outcome, m', ends, ?_⟩
  unfold Session.answer
  rw [EStateM.run_bind, Session.run_read, if_pos accepted, program]
  dsimp only
  rw [EStateM.run_bind, run_expandProgram is]
  dsimp only
  rw [EStateM.run_bind, ran]
  rfl

end Arithmetic

/-- A unit that is not refused. -/
theorem Session.eval_of_answer {s : Session} {source : Text} {a : Answer} {m : Machine}
    (ran : (answer s.limit source).run (s.machine.remark (.evaluating source.length)) = .ok a m) :
    s.eval source = (.ok a.outcome, ⟨m, s.limit⟩) := by
  have performed : (s.remark (.evaluating source.length)).run source = (.ok a, ⟨m, s.limit⟩) := by
    unfold run perform
    have ran' : (answer (s.remark (.evaluating source.length)).limit source).run
        (s.remark (.evaluating source.length)).machine = .ok a m := ran
    rw [ran']
    rfl
  unfold eval
  rw [performed]
  rfl

/-- In every session the canonical text of an arithmetic expression comes to the value of the
expression, unless it divides by zero: then it comes to that fault. Only if the expression is deeper
than evaluations can stand inside each other, it may overflow instead. All scopes are left as they
were. -/
theorem arithmetic_unit_is_exact (s : Session) {e : Arithmetic} (short : e.Short) :
    let result := (s.eval e.text).1
    ((¬ e.DividesByZero ∧
        ∃ v, (∀ w, e.Denotes w ↔ w = v) ∧ result = .ok (.value (.int v))) ∨
      (e.DividesByZero ∧ result = .ok (.failed .divisionByZero)) ∨
      (s.limit < e.height + 2 ∧ result = .ok (.failed .stackOverflow))) ∧
      (s.eval e.text).2.machine.store = s.machine.store := by
  intro result
  obtain ⟨outcome, m', ends, ran⟩ := Arithmetic.run_answer_text short s.limit
    (s.machine.remark (.evaluating e.text.length))
  have evaluated : s.eval e.text = (.ok outcome, ⟨m', s.limit⟩) := Session.eval_of_answer ran
  have is : result = .ok outcome := congrArg Prod.fst evaluated
  rw [evaluated, is]
  cases ends with
  | @value v denotes =>
      have only (w : Int) : e.Denotes w ↔ w = v :=
        ⟨fun other => other.unique denotes, fun same => same ▸ denotes⟩
      exact ⟨.inl ⟨denotes.not_dividesByZero, v, only, rfl⟩, rfl⟩
  | fault divides => exact ⟨.inr (.inl ⟨divides, rfl⟩), rfl⟩
  | tooDeep deep => exact ⟨.inr (.inr ⟨deep, rfl⟩), rfl⟩

/-- A quotient that is not whole under a product, and a division by zero beside a sum. -/
theorem arithmetic_unit_is_exact_quotient :
    let s := Session.start 0
    let nine : Arithmetic := .combined .product
      (.combined .quotient (.negative (.literal 7)) (.literal 2)) (.negative (.literal 3))
    let fault : Arithmetic := .combined .sum (.literal 1)
      (.combined .quotient (.literal 1) (.combined .difference (.literal 2) (.literal 2)))
    nine.Short ∧ nine.text = "(((-7) / 2) * (-3))" ∧
      (s.eval nine.text).1 = .ok (.value (.int 9)) ∧
      fault.Short ∧ fault.text = "(1 + (1 / (2 - 2)))" ∧
      (s.eval fault.text).1 = .ok (.failed .divisionByZero) := by
  intro s nine fault
  have digit (n : Nat) (small : n.repr.length = 1) : (Arithmetic.literal n).Short :=
    small.trans_le (by decide)
  have short : nine.Short := ⟨⟨digit 7 (by decide), digit 2 (by decide)⟩, digit 3 (by decide)⟩
  have short' : fault.Short :=
    ⟨digit 1 (by decide), digit 1 (by decide), digit 2 (by decide), digit 2 (by decide)⟩
  have whole : Arithmetic.Operation.quotient.Gives (-7) 2 (-3) := ⟨-1, by decide⟩
  have denotes : nine.Denotes 9 :=
    .combined (.combined (.negative .literal) .literal whole) (.negative .literal) rfl
  have divides : fault.DividesByZero := .right (.here (.combined .literal .literal rfl))
  refine ⟨short, by rfl, ?_, short', by rfl, ?_⟩
  · rcases (arithmetic_unit_is_exact s short).1 with ⟨-, v, only, evaluated⟩ | ⟨zero, -⟩ | ⟨deep, -⟩
    · rw [evaluated, (only 9).1 denotes]
    · exact absurd zero denotes.not_dividesByZero
    · exact absurd deep (by decide)
  · rcases (arithmetic_unit_is_exact s short').1 with ⟨whole, -⟩ | ⟨-, evaluated⟩ | ⟨deep, -⟩
    · exact absurd divides whole
    · exact evaluated
    · exact absurd deep (by decide)

end MonkeyLang
