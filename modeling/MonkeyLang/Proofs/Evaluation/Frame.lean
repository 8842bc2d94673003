import MonkeyLang.Proofs.Evaluation.Kept

/-!
# What an evaluation leaves alone

An evaluation binds names only in its own scope and in scopes that it has opened itself. All other
scopes are afterwards as they were, whatever has been called. In its own scope names come to be
bound, but none is taken out of it.

* `Store.Frame` and `Store.Grows` say so of two stores.
* `Eval.Invariant.frame` and `Eval.Invariant.growth` state it as invariants without any claim about
  values.
* `evaluate_frame` and `evaluate_grows` are the results for an evaluation in a scope.
-/

namespace MonkeyLang

/-- No scope is gone, and those outside `changing` are as they were. -/
structure Store.Frame (changing : ScopeId → Prop) (before after : Store) : Prop where
  nextId_le : before.nextId ≤ after.nextId
  scope_eq : ∀ id < before.nextId, ¬ changing id → after.scope id = before.scope id

namespace Store.Frame

variable {changing : ScopeId → Prop} {s₁ s₂ s₃ : Store}

theorem refl : Store.Frame changing s₁ s₁ := ⟨Nat.le_refl _, fun _ _ _ => rfl⟩

theorem trans (h₁ : Store.Frame changing s₁ s₂) (h₂ : Store.Frame changing s₂ s₃) :
    Store.Frame changing s₁ s₃ where
  nextId_le := Nat.le_trans h₁.nextId_le h₂.nextId_le
  scope_eq id inside unchanging :=
    (h₂.scope_eq id (Nat.lt_of_lt_of_le inside h₁.nextId_le) unchanging).trans
      (h₁.scope_eq id inside unchanging)

theorem bind {id : ScopeId} {name : Text} {v : Value} (h : changing id) :
    Store.Frame changing s₁ (s₁.bind id name v) where
  nextId_le := by simp
  scope_eq other _ unchanging := by
    rw [Store.scope_bind, if_neg]
    intro parts
    obtain ⟨rfl, -⟩ := parts
    exact unchanging h

theorem enter {outer : Option ScopeId} {bindings : Assoc Text Value} :
    Store.Frame changing s₁ (s₁.enter outer bindings) where
  nextId_le := by simp
  scope_eq other inside _ := by rw [Store.scope_enter, if_neg (Nat.ne_of_lt inside)]

/-- What changes in a new scope only changes nothing that was there. -/
theorem leave {outer : Option ScopeId} {bindings : Assoc Text Value}
    (h : Store.Frame (· = s₁.nextId) (s₁.enter outer bindings) s₂) :
    Store.Frame changing s₁ s₂ where
  nextId_le := by
    have grown := h.nextId_le
    rw [Store.nextId_enter] at grown
    exact Nat.le_of_succ_le grown
  scope_eq id inside unchanging := by
    have inside' : id < (s₁.enter outer bindings).nextId := by
      rw [Store.nextId_enter]
      exact Nat.lt_succ_of_lt inside
    rw [h.scope_eq id inside' (Nat.ne_of_lt inside)]
    exact enter.scope_eq id inside unchanging

end Store.Frame

namespace Store

/-- No scope and no name bound in one is gone, and every scope stands where it stood. -/
structure Grows (before after : Store) : Prop where
  nextId_le : before.nextId ≤ after.nextId
  outer_eq : ∀ id < before.nextId, (after.scope id).outer = (before.scope id).outer
  names : ∀ id < before.nextId, ∀ name ∈ (before.scope id).bindings.keys,
    name ∈ (after.scope id).bindings.keys

namespace Grows

variable {s s₁ s₂ s₃ : Store}

theorem refl : s.Grows s := ⟨Nat.le_refl _, fun _ _ => rfl, fun _ _ _ h => h⟩

theorem trans (h₁ : s₁.Grows s₂) (h₂ : s₂.Grows s₃) : s₁.Grows s₃ := by
  have inside {id : ScopeId} (h : id < s₁.nextId) : id < s₂.nextId :=
    Nat.lt_of_lt_of_le h h₁.nextId_le
  refine ⟨Nat.le_trans h₁.nextId_le h₂.nextId_le, fun id h => ?_, fun id h name bound => ?_⟩
  · rw [h₂.outer_eq id (inside h), h₁.outer_eq id h]
  · exact h₂.names id (inside h) name (h₁.names id h name bound)

theorem bind (s : Store) (id : ScopeId) (name : Text) (v : Value) :
    s.Grows (s.bind id name v) := by
  refine ⟨by simp, fun other _ => ?_, fun other _ old bound => ?_⟩
  · rw [scope_bind]
    split
    · next same => rw [same.1]
    · rfl
  · rw [scope_bind]
    split
    · next same =>
        obtain ⟨rfl, -⟩ := same
        rw [Assoc.keys_insert]
        split
        · exact bound
        · exact List.mem_append_left _ bound
    · exact bound

theorem enter (s : Store) (outer : Option ScopeId) (bindings : Assoc Text Value) :
    s.Grows (s.enter outer bindings) := by
  have same {id : ScopeId} (h : id < s.nextId) : (s.enter outer bindings).scope id = s.scope id := by
    rw [scope_enter, if_neg (Nat.ne_of_lt h)]
  refine ⟨by simp, fun id h => ?_, fun id h name bound => ?_⟩
  · rw [same h]
  · rwa [same h]

end Grows

end Store

/-- Only the scope of the evaluation changes. -/
def Eval.Invariant.frame : Eval.Invariant where
  Heap _ := True
  Scope _ _ := True
  Value _ _ := True
  Moves e m m' := Store.Frame (· = e) m.store m'.store
  refl := .refl
  trans := .trans
  heap_moves _ h := h
  scope_moves _ h := h
  value_moves _ h := h
  quiet same _ := by rw [same]; exact .refl
  bind _ _ _ := .bind rfl
  enter _ _ _ := .enter
  inner _ _ := trivial
  leave _ h := .leave h
  lookup _ _ _ := trivial
  plain _ _ := trivial
  array _ _ := trivial
  element _ _ _ := trivial
  hash _ _ := trivial
  entry _ _ _ := ⟨trivial, trivial⟩
  function _ _ := trivial
  closure _ := trivial

/-- Nothing of the store is ever gone. -/
def Eval.Invariant.growth : Eval.Invariant where
  Heap _ := True
  Scope _ _ := True
  Value _ _ := True
  Moves _ m m' := m.store.Grows m'.store
  refl := .refl
  trans := .trans
  heap_moves _ h := h
  scope_moves _ h := h
  value_moves _ h := h
  quiet same _ := by rw [same]; exact .refl
  bind _ _ _ := .bind _ _ _ _
  enter _ _ _ := .enter _ _ _
  inner _ _ := trivial
  leave entered ran := entered.trans ran
  lookup _ _ _ := trivial
  plain _ _ := trivial
  array _ _ := trivial
  element _ _ _ := trivial
  hash _ _ := trivial
  entry _ _ _ := ⟨trivial, trivial⟩
  function _ _ := trivial
  closure _ := trivial

/-- Where an invariant is kept, the machine moves as the scope allows, however it ends. -/
theorem Eval.Invariant.Keeps.moves {I : Eval.Invariant} {α : Type} {e : ScopeId} {m : Machine}
    {c : Eval α} {post : Machine → α → Prop} (h : I.Keeps e m c post) :
    I.Moves e m (finalState (c.run m)) := by
  unfold Eval.Invariant.Keeps at h
  cases hc : c.run m with
  | ok a m' =>
      rw [hc] at h
      exact h.1
  | error exit m' =>
      rw [hc] at h
      exact h.1

/-- An evaluation leaves all scopes but its own as they were. -/
theorem evaluate_frame (depth : Nat) (node : Node) (e : ScopeId) (m : Machine) :
    Store.Frame (· = e) m.store (finalState ((evaluate depth node e).run m)).store :=
  (Eval.Invariant.frame.evaluate depth node e m ⟨trivial, trivial⟩).moves

/-- An evaluation takes no name out of a scope and moves no scope. -/
theorem evaluate_grows (depth : Nat) (node : Node) (e : ScopeId) (m : Machine) :
    m.store.Grows (finalState ((evaluate depth node e).run m)).store :=
  (Eval.Invariant.growth.evaluate depth node e m ⟨trivial, trivial⟩).moves

end MonkeyLang
