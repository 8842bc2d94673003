import MonkeyLang.Proofs.Session.Outcomes

/-!
# Equality

Strings are not compared. All other values are told apart by an identity: integers are what they are, a
builtin function is there once, what is made anew has the number that it has been given then, and of null
and the truth values there may be several, of which one is for all to share. Two values are equal if they
have the same identity, so that equality is an equivalence.

A truth value that is not the shared one would be equal to no other with its content. So equality tests
for type and content only because programs come to the shared ones alone, by a literal, by an operator,
by a builtin function, or out of an array or a hash.

* `Value.identity?` is the identity of a value, `Value.same_eq_true_iff` says that equality tests for it.
* `Value.SameContent.eq_of_isOrdinary`: the values that programs come to are known by their content.
* `Operator.binary_same` says what the two operators make of values that are not both strings.
* `equality_is_coherent` is the result, for values and for the trees that come to them.
-/

namespace MonkeyLang

namespace Value

/-- What tells a value from others. -/
inductive Identity where
  | null (which : Instance)
  | integer (value : Int)
  | boolean (value : Bool) (which : Instance)
  | builtin (function : Builtin)
  /-- The kind and the number of a value that has been made. -/
  | made (kind : Kind) (serial : Nat)

/-- The identity of a value. Strings and faults have none. -/
def identity? : Value → Option Identity
  | null i => some (.null i)
  | int n => some (.integer n)
  | bool b i => some (.boolean b i)
  | builtin f => some (.builtin f)
  | v@(array serial _) | v@(hash serial _) | v@(function serial _ _ _) | v@(quote serial _)
  | v@(macroValue serial _ _ _) => some (.made v.kind serial)
  | str _ | error _ => none

variable {a b c : Value}

/-- Values are the same one if they have an identity, and the same one. -/
theorem same_eq_true_iff :
    a.same b = true ↔ a.identity?.isSome ∧ a.identity? = b.identity? := by
  cases a <;> cases b <;> simp [same, identity?, kind]

theorem same_comm (a b : Value) : b.same a = a.same b := by
  rw [Bool.eq_iff_iff, same_eq_true_iff, same_eq_true_iff]
  constructor
  · exact fun ⟨known, same⟩ => ⟨same ▸ known, same.symm⟩
  · exact fun ⟨known, same⟩ => ⟨same ▸ known, same.symm⟩

theorem same_trans (first : a.same b = true) (second : b.same c = true) : a.same c = true := by
  rw [same_eq_true_iff] at first second ⊢
  exact ⟨first.1, first.2.trans second.2⟩

/-- Every value but strings and faults has an identity. -/
theorem isSome_identity? (notString : a.kind ≠ .string) (notFault : a.kind ≠ .error) :
    a.identity?.isSome := by
  cases a with
  | str s => exact absurd rfl notString
  | error fault => exact absurd rfl notFault
  | _ => rfl

theorem same_self (notString : a.kind ≠ .string) (notFault : a.kind ≠ .error) :
    a.same a = true :=
  same_eq_true_iff.2 ⟨isSome_identity? notString notFault, rfl⟩

/-! ## Content -/

/-- An integer, a truth value or null. -/
def IsConstant (v : Value) : Prop := v.kind = .integer ∨ v.kind = .boolean ∨ v.kind = .null

/-- Two integers, two truth values or two nulls with the same content. -/
inductive SameContent : Value → Value → Prop
  | integer (n : Int) : SameContent (.int n) (.int n)
  | boolean (t : Bool) (i j : Instance) : SameContent (.bool t i) (.bool t j)
  | null (i j : Instance) : SameContent (.null i) (.null j)

/-- What programs come to with the same content is the same value. -/
theorem SameContent.eq_of_isOrdinary (alike : a.SameContent b) (ordinary : a.isOrdinary = true)
    (ordinary' : b.isOrdinary = true) : a = b := by
  cases alike with
  | integer n => rfl
  | boolean t i j => rw [eq_shared_of_bool ordinary, eq_shared_of_bool ordinary']
  | null i j => rw [eq_shared_of_null ordinary, eq_shared_of_null ordinary']

theorem IsConstant.same_self (constant : a.IsConstant) : a.same a = true := by
  refine Value.same_self ?_ ?_
  · rcases constant with kind | kind | kind <;> rw [kind] <;> decide
  · rcases constant with kind | kind | kind <;> rw [kind] <;> decide

/-- An integer, a truth value or null has the content of every value that it is the same one as. -/
theorem IsConstant.sameContent (constant : a.IsConstant) (same : a.same b = true) :
    a.SameContent b := by
  obtain ⟨-, identity⟩ := same_eq_true_iff.1 same
  cases a with
  | int n =>
      cases b <;> cases identity
      exact .integer n
  | bool t i =>
      cases b <;> cases identity
      exact .boolean t i i
  | null i =>
      cases b <;> cases identity
      exact .null i i
  | _ => rcases constant with kind | kind | kind <;> cases kind

/-- Among the values that programs come to, an integer, a truth value or null is the same one as those
of its type with its content. -/
theorem IsConstant.same_iff (constant : a.IsConstant) (ordinary : a.isOrdinary = true)
    (ordinary' : b.isOrdinary = true) : a.same b = true ↔ a.SameContent b := by
  refine ⟨constant.sameContent, fun alike => ?_⟩
  rw [← alike.eq_of_isOrdinary ordinary ordinary']
  exact constant.same_self

end Value

/-! ## The two operators -/

namespace Operator

/-- The operator for being equal gives `true`. -/
def Equal (a b : Value) : Prop := binary "==" a b = .ok (.bool true)

variable {a b c : Value}

/-- Strings are not tested for equality. -/
theorem binary_strings (isString : a.kind = .string) (isString' : b.kind = .string) :
    binary "==" a b = .error (.binaryOperator .string "==" .string) ∧
      binary "!=" a b = .error (.binaryOperator .string "!=" .string) := by
  cases a <;> cases isString
  cases b <;> cases isString'
  exact ⟨rfl, rfl⟩

/-- All other pairs of values are equal if they are the same one, and different if not. -/
theorem binary_same (apart : ¬ (a.kind = .string ∧ b.kind = .string)) :
    binary "==" a b = .ok (.bool (a.same b)) ∧ binary "!=" a b = .ok (.bool (! a.same b)) := by
  constructor
  · unfold binary
    split
    · rfl
    · exact absurd ⟨rfl, rfl⟩ apart
    · rfl
  · unfold binary
    split
    · rfl
    · exact absurd ⟨rfl, rfl⟩ apart
    · rfl

/-- A truth value that is not the shared one is another value. -/
example : binary "==" (.bool true (.other 0)) (.bool true) = .ok (.bool false) := rfl

/-- The test for equality fails for two strings only. -/
theorem exists_fault_iff :
    (∃ fault, binary "==" a b = .error fault) ↔ a.kind = .string ∧ b.kind = .string := by
  constructor
  · rintro ⟨fault, fails⟩
    by_contra apart
    cases fails.symm.trans (binary_same apart).1
  · exact fun ⟨isString, isString'⟩ => ⟨_, (binary_strings isString isString').1⟩

/-- It does not matter which operand is the left one. -/
theorem binary_comm (a b : Value) :
    binary "==" b a = binary "==" a b ∧ binary "!=" b a = binary "!=" a b := by
  by_cases strings : a.kind = .string ∧ b.kind = .string
  · have here := binary_strings strings.1 strings.2
    have there := binary_strings strings.2 strings.1
    exact ⟨there.1.trans here.1.symm, there.2.trans here.2.symm⟩
  · have here := binary_same strings
    have there := binary_same (mt And.symm strings)
    rw [Value.same_comm] at there
    exact ⟨there.1.trans here.1.symm, there.2.trans here.2.symm⟩

theorem equal_iff : Equal a b ↔ a.same b = true := by
  by_cases strings : a.kind = .string ∧ b.kind = .string
  · rw [Equal, (binary_strings strings.1 strings.2).1]
    refine iff_of_false nofun fun same => ?_
    have known := (Value.same_eq_true_iff.1 same).1
    cases a <;> cases strings.1
    cases known
  · rw [Equal, (binary_same strings).1]
    simp

end Operator

/-! ## Trees -/

/-- Where two trees come to values, one behind the other, an operator between the trees makes of them
what it makes of the values. -/
theorem Eval.run_binary {depth : Nat} {e : ScopeId} {left right : Node} {a b : Value}
    {m m₁ m₂ : Machine} (ranLeft : (evaluate depth left e).run m = .ok a m₁)
    (ranRight : (evaluate depth right e).run m₁ = .ok b m₂) (t : Option Token) (op : Text) :
    (evaluate (depth + 1) (.binary t left op right) e).run m =
      (Eval.ofExcept (Operator.binary op a b)).run m₂ :=
  (run_bind_of_ok ranLeft).trans (run_bind_of_ok ranRight)

/-- Where only ordinary values are reached, trees come to such values. -/
theorem isOrdinary_of_run {depth : Nat} {e : ScopeId} {tree : Node} {v : Value} {m m' : Machine}
    (ordinary : m.store.OnlyOrdinary (.scope e)) (ran : (evaluate depth tree e).run m = .ok v m') :
    v.isOrdinary = true ∧ m'.store.OnlyOrdinary (.scope e) := by
  obtain ⟨after, result⟩ := evaluate_onlyOrdinary depth tree e m ordinary
  rw [outcome_eq, ran] at after result
  exact ⟨result _ rfl v .refl, after⟩

open Session (values machine₀)

/-- The test whether two values are equal fails if both are strings, and then only. Of any other values
it gives a truth value, and the test whether they are different gives the contrary. It does not matter in
which order the values stand. Equality is reflexive on all values but strings, and it is transitive; and
of the values that programs come to, an integer, a truth value or null is equal to those of its type with
its content, and to no others. In a session programs come to such values only, which are ordinary: no
fault, no macro, and no null or truth value but the shared ones. Whatever trees have come to two values,
in whatever state, the tests between the trees give what they give of the values. -/
theorem equality_is_coherent :
    (∀ a b : Value, (∃ fault, Operator.binary "==" a b = .error fault) ↔
      a.kind = .string ∧ b.kind = .string) ∧
    (∀ a b : Value, ¬ (a.kind = .string ∧ b.kind = .string) →
      ∃ equal, Operator.binary "==" a b = .ok (.bool equal) ∧
        Operator.binary "!=" a b = .ok (.bool (!equal))) ∧
    (∀ a b : Value, Operator.binary "==" b a = Operator.binary "==" a b ∧
      Operator.binary "!=" b a = Operator.binary "!=" a b) ∧
    (∀ a : Value, a.kind ≠ .string → a.kind ≠ .error → Operator.Equal a a) ∧
    (∀ a b c : Value, Operator.Equal a b → Operator.Equal b c → Operator.Equal a c) ∧
    (∀ a b : Value, a.isOrdinary = true → b.isOrdinary = true → a.IsConstant →
      (Operator.Equal a b ↔ a.SameContent b)) ∧
    (∀ s : Session, s.Reached → s.machine.store.OnlyOrdinary (.scope values)) ∧
    ∀ (depth : Nat) (e : ScopeId) (t : Option Token) (left right : Node) (a b : Value)
      (m m₁ m₂ : Machine), m.store.OnlyOrdinary (.scope e) →
      (evaluate depth left e).run m = .ok a m₁ → (evaluate depth right e).run m₁ = .ok b m₂ →
      a.isOrdinary = true ∧ b.isOrdinary = true ∧
        ∀ op, (evaluate (depth + 1) (.binary t left op right) e).run m =
          (Eval.ofExcept (Operator.binary op a b)).run m₂ := by
  refine ⟨fun a b => Operator.exists_fault_iff, fun a b apart => ⟨_, Operator.binary_same apart⟩,
    Operator.binary_comm, fun a notString notFault => ?_, fun a b c first second => ?_,
    fun a b ordinary ordinary' constant =>
      Operator.equal_iff.trans (constant.same_iff ordinary ordinary'),
    fun s reached => reached.divided.onlyOrdinary,
    fun depth e t left right a b m m₁ m₂ ordinary ranLeft ranRight => ?_⟩
  · exact Operator.equal_iff.2 (Value.same_self notString notFault)
  · rw [Operator.equal_iff] at first second ⊢
    exact Value.same_trans first second
  · obtain ⟨ordinaryLeft, after⟩ := isOrdinary_of_run ordinary ranLeft
    exact ⟨ordinaryLeft, (isOrdinary_of_run after ranRight).1, Eval.run_binary ranLeft ranRight t⟩

/-- The result of a comparison, found in a hash under the result of a negation, is equal to that of a
test whether two nulls are equal, one from an empty function and one from behind the end of an array. -/
theorem equality_is_coherent_truth :
    let pair : Node × Node := (.bool none true, .binary none (.int none 1) "<" (.int none 2))
    let left : Node := .index none (.hash none [pair]) (.unary none "!" (.bool none false))
    let right : Node := .binary none (.call none (.fnLit none [] (.block none [])) []) "=="
      (.index none (.array none []) (.int none 0))
    machine₀.store.OnlyOrdinary (.scope values) ∧
      ∃ m₁ m₂, (evaluate 5 left values).run machine₀ = .ok (.bool true) m₁ ∧
        (evaluate 5 right values).run m₁ = .ok (.bool true) m₂ ∧
        (evaluate 6 (.binary none left "==" right) values).run machine₀ = .ok (.bool true) m₂ ∧
        (evaluate 6 (.binary none left "!=" right) values).run machine₀ = .ok (.bool false) m₂ := by
  intro pair left right
  obtain ⟨-, -, -, -, -, -, sessions, trees⟩ := equality_is_coherent
  have ordinary : machine₀.store.OnlyOrdinary (.scope values) := sessions _ (.start 0)
  have compared := (trees 5 values none left right (.bool true) (.bool true) machine₀ _ _ ordinary
    rfl rfl).2.2
  exact ⟨ordinary, _, _, rfl, rfl, compared "==", compared "!="⟩

end MonkeyLang
