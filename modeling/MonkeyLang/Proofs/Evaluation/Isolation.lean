import MonkeyLang.Proofs.Evaluation.Expansion
import MonkeyLang.Proofs.Store.Links
import MonkeyLang.Session

/-!
# Scopes are isolated from each other

An evaluation in a scope binds names there and in scopes of its own making, and nowhere else. So
what a function or a macro binds while it runs is not to be seen where it was called, where it was
made, or anywhere else that was there before.

* `Store.Extends.lookup_eq`: from a scope that nothing has been bound in or around since, every
  name has the value it had.
* `apply_extends` and `expand_extends` say that calls and expansions leave all scopes alone.
* `evaluate_isolates_scopes` is the result.
-/

namespace MonkeyLang

open Session (values machine₀)

/-- Where no scope has changed that was there, every name has the value it had. -/
theorem Store.Extends.lookup_eq {s s' : Store} (h : s.Extends s') {id : ScopeId}
    (inside : id < s.nextId) (name : Text) : s'.lookup id name = s.lookup id name := by
  have scope_eq {id : ScopeId} (inside : id < s.nextId) : s'.scope id = s.scope id :=
    h.scope_eq id inside not_false
  have outer_eq {id : ScopeId} (inside : id < s.nextId) : s'.outer? id = s.outer? id := by
    unfold Store.outer?
    rw [scope_eq inside]
  induction id using Store.lookup.induct s name with
  | case1 id value bound =>
      rw [Store.lookup, Store.lookup, scope_eq inside, bound]
  | case2 id unbound outer older around ih =>
      rw [Store.lookup, Store.lookup, scope_eq inside, unbound]
      simp only [outer_eq inside, around]
      exact ih (Nat.lt_trans older inside)
  | case3 id unbound around =>
      rw [Store.lookup, Store.lookup, scope_eq inside, unbound]
      simp only [outer_eq inside, around]

/-- A call leaves all scopes that there were as they were. -/
theorem apply_extends (depth : Nat) (callee : Value) (arguments : List Value) (m : Machine) :
    m.store.Extends (finalState ((Eval.apply (evaluate depth) callee arguments).run m)).store := by
  have run (node : Node) (e : ScopeId) (m : Machine) (at_ : Eval.Invariant.frame.At e m) :=
    Eval.Invariant.frame.evaluate depth node e m at_
  -- The call is a move of the scope it is made from; let that be one that is not there yet.
  have kept : Eval.Invariant.frame.Keeps m.store.nextId m
      (Eval.apply (evaluate depth) callee arguments) Eval.Invariant.frame.Value :=
    .apply run ⟨trivial, trivial⟩ trivial fun _ _ => trivial
  exact kept.moves.extends

/-- In a linked store an evaluation opens scopes inside older ones only, and links them. -/
theorem evaluate_linked {m : Machine} (linked : m.store.Linked) {e : ScopeId}
    (inside : e < m.store.nextId) (depth : Nat) (node : Node) :
    (finalState ((evaluate depth node e).run m)).store.Linked ∧
      m.store.Nested (finalState ((evaluate depth node e).run m)).store :=
  (Eval.Invariant.linked.evaluate depth node e m ⟨linked, inside⟩).moves.2 linked

theorem Session.linked_machine₀ : machine₀.store.Linked := by
  have none_bound (id : ScopeId) : machine₀.store.scope id = ⟨[], none⟩ := by
    match id with
    | 0 | 1 => rfl
    | id + 2 => exact Store.scope_of_le (Nat.le_add_left 2 id)
  constructor
  · intro id name v bound
    rw [none_bound] at bound
    cases bound
  · intro id around outer
    rw [none_bound] at outer
    cases outer

/-- Whatever the machine, an evaluation in a scope leaves all other scopes as they were, takes no
name out of any, and moves none; if all scopes are linked, they stay so, and each new scope stands
inside one that was there when it was opened. In a linked store the scopes around a scope are
found by following its links, and there is an end to them. A call, and the expansion of the macros
in a tree, however it ends, leave all scopes as they were, so that every name has the value it had
from wherever it is looked up. -/
theorem evaluate_isolates_scopes :
    (∀ (depth : Nat) (node : Node) (e : ScopeId) (m : Machine),
      let after := (finalState ((evaluate depth node e).run m)).store
      Store.Frame (· = e) m.store after ∧ m.store.Grows after ∧
        (m.store.Linked → e < m.store.nextId → after.Linked ∧ m.store.Nested after)) ∧
    (∀ s : Store, s.Linked → ∀ id : ScopeId,
      (s.chain id).IsChain (fun inner around => (s.scope inner).outer = some around) ∧
        (∃ around, s.chain id = id :: around) ∧
          ∃ last ∈ (s.chain id).getLast?, (s.scope last).outer = none) ∧
    (∀ (depth : Nat) (callee : Value) (arguments : List Value) (m : Machine),
      let after := (finalState ((Eval.apply (evaluate depth) callee arguments).run m)).store
      m.store.Extends after ∧
        ∀ id < m.store.nextId, ∀ name, after.lookup id name = m.store.lookup id name) ∧
    ∀ (depth : Nat) (scope : ScopeId) (node : Node) (m : Machine),
      let after := (finalState ((expand depth scope node).run m)).store
      m.store.Extends after ∧
        ∀ id < m.store.nextId, ∀ name, after.lookup id name = m.store.lookup id name := by
  refine ⟨fun depth node e m => ⟨?_, ?_, ?_⟩, fun s linked id => linked.chain_follows id, ?_, ?_⟩
  · exact evaluate_frame depth node e m
  · exact evaluate_grows depth node e m
  · exact fun linked inside => evaluate_linked linked inside depth node
  · intro depth callee arguments m
    have extends_ := apply_extends depth callee arguments m
    exact ⟨extends_, fun id inside name => extends_.lookup_eq inside name⟩
  · intro depth scope node m
    have extends_ := expand_extends depth scope node m
    exact ⟨extends_, fun id inside name => extends_.lookup_eq inside name⟩

/-- The call of a function that binds a name: it is bound in a new scope inside the outermost one,
which has no more than the function. -/
theorem evaluate_isolates_scopes_call :
    let program := (parse "let f = fn(x) \x7b let y = x; y \x7d; f(1)").program
    let after := (finalState ((evaluate 20 program values).run machine₀)).store
    machine₀.store.Linked ∧ values < machine₀.store.nextId ∧
      after.Linked ∧ machine₀.store.Nested after ∧
        (after.scope values).bindings.keys = ["f"] ∧ after.nextId = 3 ∧
          (after.scope 2).bindings.keys = ["x", "y"] ∧ (after.scope 2).outer = some values := by
  intro program after
  have linked := Session.linked_machine₀
  have inside : values < machine₀.store.nextId := by decide
  have isolated := evaluate_isolates_scopes.1 20 program values machine₀
  obtain ⟨linked', nested⟩ := isolated.2.2 linked inside
  exact ⟨linked, inside, linked', nested, by decide +kernel, by decide +kernel,
    by decide +kernel, by decide +kernel⟩

end MonkeyLang
