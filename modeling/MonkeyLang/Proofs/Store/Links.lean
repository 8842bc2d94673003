import Mathlib.Data.List.Chain
import MonkeyLang.Proofs.Evaluation.Frame

/-!
# Links between scopes

A scope is linked to the scope around it, and a value to the scopes in which the functions and
macros in it were made. All links of a store lead to scopes that are there, and from a scope one
comes to older ones only.

* `Store.Linked` says so of a store; `Store.Linked.chain_follows` concludes that the scopes around
  a scope form a chain with an end, and that this chain is the one names are looked up along.
* `Store.Nested` says of two stores that each new scope of the second stands inside an older one.
* `Eval.Invariant.linked` states both as an invariant of evaluations.
-/

namespace MonkeyLang

/-! ## Values -/

/-- A value refers to the scopes in which the functions and macros in it were made. -/
inductive Value.RefersTo : Value → ScopeId → Prop
  | function {serial : Nat} {parameters : List Node} {body : Node} {scope : ScopeId} :
    RefersTo (.function serial parameters body scope) scope
  | macroValue {serial : Nat} {parameters : List Node} {body : Node} {scope : ScopeId} :
    RefersTo (.macroValue serial parameters body scope) scope
  | element {serial : Nat} {elements : List Value} {v : Value} {id : ScopeId} :
    v ∈ elements → RefersTo v id → RefersTo (.array serial elements) id
  | key {serial : Nat} {entries : List (HashKey × Value × Value)}
      {entry : HashKey × Value × Value} {id : ScopeId} :
    entry ∈ entries → RefersTo entry.2.1 id → RefersTo (.hash serial entries) id
  | entry {serial : Nat} {entries : List (HashKey × Value × Value)}
      {entry : HashKey × Value × Value} {id : ScopeId} :
    entry ∈ entries → RefersTo entry.2.2 id → RefersTo (.hash serial entries) id

/-- The value refers to none but the first `size` scopes. -/
def Value.Below (size : Nat) (v : Value) : Prop := ∀ id, v.RefersTo id → id < size

namespace Value.Below

variable {size size' : Nat} {v : Value}

theorem mono (h : v.Below size) (grown : size ≤ size') : v.Below size' :=
  fun id refers => Nat.lt_of_lt_of_le (h id refers) grown

theorem plain (h : v.isPlain = true) : v.Below size := by
  intro id refers
  cases refers <;> cases h

theorem array_iff {serial : Nat} {elements : List Value} :
    (Value.array serial elements).Below size ↔ ∀ v ∈ elements, v.Below size := by
  constructor
  · exact fun h v mem id refers => h id (.element mem refers)
  · intro h id refers
    cases refers with
    | element mem refers => exact h _ mem id refers

theorem hash_iff {serial : Nat} {entries : List (HashKey × Value × Value)} :
    (Value.hash serial entries).Below size ↔
      ∀ entry ∈ entries, entry.2.1.Below size ∧ entry.2.2.Below size := by
  constructor
  · exact fun h entry mem =>
      ⟨fun id refers => h id (.key mem refers), fun id refers => h id (.entry mem refers)⟩
  · intro h id refers
    cases refers with
    | key mem refers => exact (h _ mem).1 id refers
    | entry mem refers => exact (h _ mem).2 id refers

theorem function_iff {serial : Nat} {parameters : List Node} {body : Node} {scope : ScopeId} :
    (Value.function serial parameters body scope).Below size ↔ scope < size := by
  constructor
  · exact fun h => h scope .function
  · intro h id refers
    cases refers
    exact h

end Value.Below

/-! ## Stores -/

/-- All links of the store lead to scopes that are there, and out of a scope to older ones. -/
structure Store.Linked (s : Store) : Prop where
  binding : ∀ {id name v}, (name, v) ∈ (s.scope id).bindings → v.Below s.nextId
  outer : ∀ {id around}, (s.scope id).outer = some around → around < id

namespace Store

/-- Each new scope stands inside one that was there when it was opened. -/
def Nested (before after : Store) : Prop :=
  ∀ id, before.nextId ≤ id → id < after.nextId → ∃ around < id, (after.scope id).outer = some around

variable {s s' s₁ s₂ s₃ : Store}

/-- A number that is none of a scope has nothing. -/
theorem scope_of_le {id : ScopeId} (h : s.nextId ≤ id) : s.scope id = ⟨[], none⟩ := by
  unfold nextId at h
  rw [scope, Array.getD_eq_getD_getElem?, Array.getElem?_eq_none h]
  rfl

namespace Nested

theorem refl : s.Nested s := fun _ later inside => absurd inside (Nat.not_lt_of_le later)

/-- A scope that is new after the first part stands after the second where it stood before. -/
theorem trans (h₁ : s₁.Nested s₂) (grows : s₂.Grows s₃) (h₂ : s₂.Nested s₃) : s₁.Nested s₃ := by
  intro id later inside
  rcases Nat.lt_or_ge id s₂.nextId with old | new
  · rw [grows.outer_eq id old]
    exact h₁ id later old
  · exact h₂ id new inside

theorem enter {outer : ScopeId} (h : outer < s.nextId) (bindings : Assoc Text Value) :
    s.Nested (s.enter (some outer) bindings) := by
  intro id later inside
  rw [nextId_enter] at inside
  obtain rfl : id = s.nextId := Nat.le_antisymm (Nat.le_of_lt_succ inside) later
  refine ⟨outer, h, ?_⟩
  rw [scope_enter, if_pos rfl]

end Nested

namespace Linked

/-- No link is cut off where the scopes around a scope are followed. -/
theorem outer?_eq (h : s.Linked) (id : ScopeId) :
    (s.outer? id).map Subtype.val = (s.scope id).outer := by
  unfold Store.outer?
  cases outer : (s.scope id).outer with
  | none => rfl
  | some around =>
      dsimp only
      rw [dif_pos (h.outer outer)]
      rfl

/-- A name that is found is bound to a value that refers to scopes that are there. -/
theorem lookup (h : s.Linked) {id : ScopeId} {name : Text} {v : Value}
    (found : s.lookup id name = some v) : v.Below s.nextId := by
  obtain ⟨id, bound⟩ := exists_binding_of_lookup found
  exact h.binding bound

theorem bind (h : s.Linked) {id : ScopeId} {name : Text} {v : Value} (below : v.Below s.nextId) :
    (s.bind id name v).Linked := by
  constructor
  · intro other name' w bound
    rw [nextId_bind]
    rw [scope_bind] at bound
    split at bound
    · next same =>
        rcases Assoc.mem_insert bound with old | new
        · exact h.binding old
        · cases new
          exact below
    · exact h.binding bound
  · intro other around outer
    rw [scope_bind] at outer
    split at outer
    · next same => exact h.outer (same.1 ▸ outer)
    · exact h.outer outer

theorem enter (h : s.Linked) {outer : ScopeId} {bindings : Assoc Text Value}
    (inside : outer < s.nextId) (below : ∀ b ∈ bindings, b.2.Below s.nextId) :
    (s.enter (some outer) bindings).Linked := by
  have grown : s.nextId ≤ (s.enter (some outer) bindings).nextId := by simp
  constructor
  · intro id name v bound
    rw [scope_enter] at bound
    split at bound
    · exact (below _ bound).mono grown
    · exact (h.binding bound).mono grown
  · intro id around outer'
    rw [scope_enter] at outer'
    split at outer'
    · next new =>
        cases outer'
        rw [new]
        exact inside
    · exact h.outer outer'

/-- From a scope one comes to the scope around it, from there to the next one, and so on to one
around which there is none. -/
theorem chain_follows (h : s.Linked) (id : ScopeId) :
    (s.chain id).IsChain (fun inner around => (s.scope inner).outer = some around) ∧
      (∃ around, s.chain id = id :: around) ∧
        ∃ last ∈ (s.chain id).getLast?, (s.scope last).outer = none := by
  induction id using Store.chain.induct s with
  | case1 id around older next ih =>
      rw [Store.chain]
      simp only [next]
      obtain ⟨linked, ⟨later, head⟩, last, ends, free⟩ := ih
      refine ⟨?_, ⟨_, rfl⟩, last, ?_, free⟩
      · rw [head] at linked ⊢
        exact .cons_cons (outer_of_outer? next) linked
      · rw [head] at ends ⊢
        rwa [List.getLast?_cons_cons]
  | case2 id next =>
      rw [Store.chain]
      simp only [next]
      refine ⟨.singleton id, ⟨[], rfl⟩, id, rfl, ?_⟩
      rw [← h.outer?_eq, next]
      rfl

end Linked

end Store

/-! ## Evaluations -/

/-- The store stays linked, and new scopes stand inside older ones. -/
def Eval.Invariant.linked : Eval.Invariant where
  Heap m := m.store.Linked
  Scope m id := id < m.store.nextId
  Value m v := v.Below m.store.nextId
  Moves _ m m' := m.store.Grows m'.store ∧
    (m.store.Linked → m'.store.Linked ∧ m.store.Nested m'.store)
  refl := ⟨.refl, fun linked => ⟨linked, .refl⟩⟩
  trans first second := by
    refine ⟨first.1.trans second.1, fun linked => ?_⟩
    obtain ⟨linked₂, nested₂⟩ := first.2 linked
    obtain ⟨linked₃, nested₃⟩ := second.2 linked₂
    exact ⟨linked₃, nested₂.trans second.1 nested₃⟩
  heap_moves move linked := (move.2 linked).1
  scope_moves move inside := Nat.lt_of_lt_of_le inside move.1.nextId_le
  value_moves move below := below.mono move.1.nextId_le
  quiet same _ := by rw [same]; exact ⟨.refl, fun linked => ⟨linked, .refl⟩⟩
  bind {e m name v} _ _ below := by
    refine ⟨.bind _ _ _ _, fun linked => ⟨linked.bind below, fun id later inside => ?_⟩⟩
    rw [Machine.bind, Store.nextId_bind] at inside
    exact absurd inside (Nat.not_lt_of_le later)
  enter _ inside below := ⟨.enter _ _ _, fun linked => ⟨linked.enter inside below, .enter inside _⟩⟩
  inner _ _ := by
    simp only [Machine.enter, Store.nextId_enter]
    exact Nat.lt_succ_self _
  leave entered ran := by
    refine ⟨entered.1.trans ran.1, fun linked => ?_⟩
    obtain ⟨linked₂, nested₂⟩ := entered.2 linked
    obtain ⟨linked₃, nested₃⟩ := ran.2 linked₂
    exact ⟨linked₃, nested₂.trans ran.1 nested₃⟩
  lookup linked _ found := linked.lookup found
  plain h _ := .plain h
  array _ := Value.Below.array_iff.2
  element := Value.Below.array_iff.1
  hash _ := Value.Below.hash_iff.2
  entry := Value.Below.hash_iff.1
  function _ := Value.Below.function_iff.2
  closure := Value.Below.function_iff.1

end MonkeyLang
