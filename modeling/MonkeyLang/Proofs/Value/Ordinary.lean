import MonkeyLang.Proofs.Evaluation.Frame
import MonkeyLang.Proofs.Value.Reach

/-!
# Evaluation computes ordinary values

An evaluation takes values from its scope, from what it computes, and from nowhere else. So where
none but ordinary values are to be reached when it starts, none but these are to be reached when
it ends, and its result is one of them: a fault is no value, and a return ends the evaluation
before it could be put into anything.

The invariant fixes a set `known` of scopes and allows besides them the scopes that have been
opened since there were `start` of them. While the evaluation goes on, the allowed scopes are
closed (`Store.Closed`).
-/

namespace MonkeyLang

/-- The known scopes, and those that have been opened since there were `start`, in a store of
`size` scopes. -/
def Allowed (known : ScopeId → Prop) (start size : Nat) (id : ScopeId) : Prop :=
  known id ∨ start ≤ id ∧ id < size

namespace Allowed

variable {known : ScopeId → Prop} {start size size' : Nat}

theorem mono {id : ScopeId} (h : Allowed known start size id) (grown : size ≤ size') :
    Allowed known start size' id :=
  h.imp_right fun ⟨later, inside⟩ => ⟨later, Nat.lt_of_lt_of_le inside grown⟩

/-- At the start the known scopes are allowed and no others. -/
theorem at_start : Allowed known start start = known := by
  funext id
  refine propext ⟨fun h => h.resolve_right fun ⟨later, inside⟩ => ?_, .inl⟩
  exact absurd inside (Nat.not_lt_of_le later)

/-- The scope that is opened next will be allowed. -/
theorem next (later : start ≤ size) : Allowed known start (size + 1) size :=
  .inr ⟨later, Nat.lt_succ_self size⟩

theorem of_ne_next {id : ScopeId} (h : Allowed known start (size + 1) id) (old : id ≠ size) :
    Allowed known start size id :=
  h.imp_right fun ⟨later, inside⟩ => ⟨later, Nat.lt_of_le_of_ne (Nat.le_of_lt_succ inside) old⟩

end Allowed

/-- The allowed scopes of a store are closed. -/
structure Store.Sound (known : ScopeId → Prop) (start : Nat) (s : Store) : Prop where
  start_le : start ≤ s.nextId
  closed : s.Closed (Allowed known start s.nextId)

namespace Store.Sound

variable {known : ScopeId → Prop} {start : Nat} {s : Store}

theorem bind (h : s.Sound known start) {id : ScopeId} {name : Text} {v : Value}
    (holds : v.Within (Allowed known start s.nextId)) : (s.bind id name v).Sound known start where
  start_le := by simpa using h.start_le
  closed := by
    rw [Store.nextId_bind]
    constructor
    · intro other name' w allowed bound
      rw [Store.scope_bind] at bound
      split at bound
      · next same =>
          rcases Assoc.mem_insert bound with old | new
          · exact h.closed.binding (same.1 ▸ allowed) old
          · cases new
            exact holds
      · exact h.closed.binding allowed bound
    · intro other around allowed outer
      rw [Store.scope_bind] at outer
      split at outer
      · next same => exact h.closed.outer (same.1 ▸ allowed) outer
      · exact h.closed.outer allowed outer

theorem enter (h : s.Sound known start) {outer : ScopeId} {bindings : Assoc Text Value}
    (houter : Allowed known start s.nextId outer)
    (holds : ∀ b ∈ bindings, b.2.Within (Allowed known start s.nextId)) :
    (s.enter (some outer) bindings).Sound known start where
  start_le := by
    rw [Store.nextId_enter]
    exact Nat.le_succ_of_le h.start_le
  closed := by
    have grow (id : ScopeId) (h : Allowed known start s.nextId id) :
        Allowed known start (s.nextId + 1) id :=
      h.mono (Nat.le_succ _)
    rw [Store.nextId_enter]
    constructor
    · intro id name v allowed bound
      rw [Store.scope_enter] at bound
      split at bound
      · exact (holds _ bound).mono grow
      · next old => exact (h.closed.binding (allowed.of_ne_next old) bound).mono grow
    · intro id around allowed outer
      rw [Store.scope_enter] at outer
      split at outer
      · cases outer
        exact grow _ houter
      · next old => exact grow _ (h.closed.outer (allowed.of_ne_next old) outer)

end Store.Sound

/-- Values stay within the allowed scopes. -/
def Eval.Invariant.ordinary (known : ScopeId → Prop) (start : Nat) : Eval.Invariant where
  Heap m := m.store.Sound known start
  Scope m := Allowed known start m.store.nextId
  Value m v := v.Within (Allowed known start m.store.nextId)
  Moves _ m m' :=
    m.store.nextId ≤ m'.store.nextId ∧ (m.store.Sound known start → m'.store.Sound known start)
  refl := ⟨Nat.le_refl _, id⟩
  trans first second := ⟨Nat.le_trans first.1 second.1, second.2 ∘ first.2⟩
  heap_moves move := move.2
  scope_moves move h := h.mono move.1
  value_moves move h := h.mono fun _ allowed => allowed.mono move.1
  quiet same _ := by rw [same]; exact ⟨Nat.le_refl _, id⟩
  bind _ _ holds := ⟨Nat.le_of_eq (Store.nextId_bind ..).symm, fun sound => sound.bind holds⟩
  enter _ houter holds :=
    ⟨by simp [Machine.enter], fun sound => sound.enter houter holds⟩
  inner sound _ := by
    simp only [Machine.enter, Store.nextId_enter]
    exact Allowed.next sound.start_le
  leave entered ran := ⟨Nat.le_trans entered.1 ran.1, ran.2 ∘ entered.2⟩
  lookup sound inside found := sound.closed.lookup inside found
  plain h _ := .plain h
  array _ := Value.Within.array_iff.2
  element := Value.Within.array_iff.1
  hash _ := Value.Within.hash_iff.2
  entry := Value.Within.hash_iff.1
  function _ := Value.Within.function_iff.2
  closure := Value.Within.function_iff.1

/-- The value of an outcome, or the value that is returned, is ordinary, and so are all values that
are reached from it. -/
def Outcome.OnlyOrdinary (s : Store) : Outcome → Prop
  | .value v | .returned v => s.OnlyOrdinary (.value v)
  | .failed _ => True

theorem outcome_eq (c : Eval Value) (m : Machine) :
    c.outcome m =
      match c.run m with
      | .ok v m' => (.ok (.value v), m')
      | .error (.failed fault) m' => (.ok (.failed fault), m')
      | .error (.returned v) m' => (.ok (.returned v), m')
      | .error (.halted halt) m' => (.error halt, m') :=
  rfl

/-- Where none but ordinary values are to be reached from the scope of an evaluation, none but
these are to be reached from it afterwards or from the outcome. -/
theorem evaluate_onlyOrdinary (depth : Nat) (node : Node) (e : ScopeId) (m : Machine)
    (ordinary : m.store.OnlyOrdinary (.scope e)) :
    ((evaluate depth node e).outcome m).2.store.OnlyOrdinary (.scope e) ∧
      ∀ outcome, ((evaluate depth node e).outcome m).1 = .ok outcome →
        outcome.OnlyOrdinary ((evaluate depth node e).outcome m).2.store := by
  let known := fun id => m.store.Reaches (.scope e) (.scope id)
  let I := Eval.Invariant.ordinary known m.store.nextId
  have sound : m.store.Sound known m.store.nextId := by
    refine ⟨Nat.le_refl _, ?_⟩
    rw [Allowed.at_start]
    exact Store.closed_of_onlyOrdinary ordinary
  have start : I.At e m := ⟨sound, .inl .refl⟩
  have kept := I.evaluate depth node e m start
  unfold Eval.Invariant.Keeps at kept
  rw [outcome_eq]
  cases ran : (evaluate depth node e).run m with
  | ok v m' =>
      rw [ran] at kept
      have closed := (kept.1.2 sound).closed
      refine ⟨closed.onlyOrdinary (.inl .refl), fun outcome h => ?_⟩
      cases h
      exact closed.onlyOrdinary (p := .value v) kept.2
  | error exit m' =>
      rw [ran] at kept
      have closed := (kept.1.2 sound).closed
      cases exit with
      | failed fault =>
          refine ⟨closed.onlyOrdinary (.inl .refl), fun outcome h => ?_⟩
          cases h
          exact trivial
      | returned v =>
          refine ⟨closed.onlyOrdinary (.inl .refl), fun outcome h => ?_⟩
          cases h
          exact closed.onlyOrdinary (p := .value v) kept.2
      | halted halt =>
          exact ⟨closed.onlyOrdinary (.inl .refl), fun outcome h => nomatch h⟩

end MonkeyLang
