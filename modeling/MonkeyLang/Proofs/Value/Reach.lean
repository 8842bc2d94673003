import Mathlib.Logic.Relation
import MonkeyLang.Proofs.Evaluation.Invariant

/-!
# What can be reached

From a scope one comes to the values it binds and to the scope around it, from an array or a hash
to what it holds, and from a function to the scope it was made in. `Store.Reaches` is the closure
of these steps. A value is ordinary if it is neither a fault nor a macro, and no null or truth value
but one of the shared ones; a return on its way out is no value at all.

* `Store.OnlyOrdinary s p`: none but ordinary values can be reached from `p`.
* `Value.Within allowed v`: the value `v` holds none but ordinary values, and its functions were
  made in allowed scopes. `Store.Closed allowed` says so of all that allowed scopes bind.
* `Store.Closed.onlyOrdinary` and `Store.closed_of_onlyOrdinary` lead from one to the other.
-/

namespace MonkeyLang

/-- Neither a fault nor a macro, nor a null or a truth value that is not the shared one. -/
def Value.isOrdinary : Value → Bool
  | .macroValue _ _ _ _ | .error _ | .null (.other _) | .bool _ (.other _) => false
  | _ => true

theorem Value.isOrdinary_of_isPlain {v : Value} (plain : v.isPlain = true) : v.isOrdinary = true := by
  cases v with
  | null which | bool _ which => cases which <;> first | rfl | cases plain
  | _ => first | rfl | cases plain

/-- A null that is ordinary is the shared one. -/
theorem Value.eq_shared_of_null {i : Instance} (ordinary : (Value.null i).isOrdinary = true) :
    i = .shared := by
  cases i with
  | shared => rfl
  | other number => cases ordinary

/-- A truth value that is ordinary is a shared one. -/
theorem Value.eq_shared_of_bool {t : Bool} {i : Instance} (ordinary : (Value.bool t i).isOrdinary = true) :
    i = .shared := by
  cases i with
  | shared => rfl
  | other number => cases ordinary

/-- What one can stand at: a scope or a value. -/
inductive Place where
  | scope (id : ScopeId)
  | value (v : Value)

namespace Store

/-- One step from a place to the next. -/
inductive Leads (s : Store) : Place → Place → Prop
  | binding {id : ScopeId} {name : Text} {v : Value} :
    (name, v) ∈ (s.scope id).bindings → Leads s (.scope id) (.value v)
  | outer {id around : ScopeId} :
    (s.scope id).outer = some around → Leads s (.scope id) (.scope around)
  | element {serial : Nat} {elements : List Value} {v : Value} :
    v ∈ elements → Leads s (.value (.array serial elements)) (.value v)
  | key {serial : Nat} {entries : List (HashKey × Value × Value)}
      {entry : HashKey × Value × Value} :
    entry ∈ entries → Leads s (.value (.hash serial entries)) (.value entry.2.1)
  | entry {serial : Nat} {entries : List (HashKey × Value × Value)}
      {entry : HashKey × Value × Value} :
    entry ∈ entries → Leads s (.value (.hash serial entries)) (.value entry.2.2)
  | closure {serial : Nat} {parameters : List Node} {body : Node} {id : ScopeId} :
    Leads s (.value (.function serial parameters body id)) (.scope id)

/-- Any number of steps. -/
abbrev Reaches (s : Store) : Place → Place → Prop := Relation.ReflTransGen s.Leads

/-- None but ordinary values can be reached from the place. -/
def OnlyOrdinary (s : Store) (p : Place) : Prop :=
  ∀ v, s.Reaches p (.value v) → v.isOrdinary = true

/-- The value of a name can be reached from the scope that it is looked up in. -/
theorem reaches_of_lookup {s : Store} {id : ScopeId} {name : Text} {v : Value}
    (found : s.lookup id name = some v) : s.Reaches (.scope id) (.value v) := by
  induction id using Store.lookup.induct s name with
  | case1 id value bound =>
      rw [lookup, bound] at found
      cases found
      exact .single (.binding (Assoc.mem_of_get? bound))
  | case2 id unbound outer older around ih =>
      rw [lookup, unbound] at found
      simp only [around] at found
      exact .head (.outer (outer_of_outer? around)) (ih found)
  | case3 id unbound around =>
      rw [lookup, unbound] at found
      simp only [around] at found
      cases found

theorem OnlyOrdinary.leads {s : Store} {p q : Place} (h : s.OnlyOrdinary p) (step : s.Leads p q) :
    s.OnlyOrdinary q :=
  fun v reached => h v (.head step reached)

theorem OnlyOrdinary.reaches {s : Store} {p q : Place} (h : s.OnlyOrdinary p)
    (steps : s.Reaches p q) : s.OnlyOrdinary q :=
  fun v reached => h v (steps.trans reached)

end Store

/-! ## Values within a set of scopes -/

/-- An ordinary value that holds none but ordinary values, and whose functions were made in scopes
that are allowed. -/
inductive Value.Within (allowed : ScopeId → Prop) : Value → Prop
  | plain {v : Value} : v.isPlain = true → Within allowed v
  | array {serial : Nat} {elements : List Value} :
    (∀ v ∈ elements, Within allowed v) → Within allowed (.array serial elements)
  | hash {serial : Nat} {entries : List (HashKey × Value × Value)} :
    (∀ entry ∈ entries, Within allowed entry.2.1) → (∀ entry ∈ entries, Within allowed entry.2.2) →
    Within allowed (.hash serial entries)
  | function {serial : Nat} {parameters : List Node} {body : Node} {scope : ScopeId} :
    allowed scope → Within allowed (.function serial parameters body scope)

namespace Value.Within

variable {allowed allowed' : ScopeId → Prop} {v : Value}

theorem mono (more : ∀ id, allowed id → allowed' id) (h : v.Within allowed) :
    v.Within allowed' := by
  induction h with
  | plain h => exact .plain h
  | array _ ih => exact .array ih
  | hash _ _ ihKey ihValue => exact .hash ihKey ihValue
  | function h => exact .function (more _ h)

theorem isOrdinary (h : v.Within allowed) : v.isOrdinary = true := by
  cases h with
  | plain h => exact isOrdinary_of_isPlain h
  | _ => rfl

theorem array_iff {serial : Nat} {elements : List Value} :
    (Value.array serial elements).Within allowed ↔ ∀ v ∈ elements, v.Within allowed := by
  constructor
  · intro h
    cases h with
    | plain h => cases h
    | array h => exact h
  · exact .array

theorem hash_iff {serial : Nat} {entries : List (HashKey × Value × Value)} :
    (Value.hash serial entries).Within allowed ↔
      ∀ entry ∈ entries, entry.2.1.Within allowed ∧ entry.2.2.Within allowed := by
  constructor
  · intro h
    cases h with
    | plain h => cases h
    | hash hkey hvalue => exact fun entry mem => ⟨hkey entry mem, hvalue entry mem⟩
  · exact fun h => .hash (fun entry mem => (h entry mem).1) fun entry mem => (h entry mem).2

theorem function_iff {serial : Nat} {parameters : List Node} {body : Node} {scope : ScopeId} :
    (Value.function serial parameters body scope).Within allowed ↔ allowed scope := by
  constructor
  · intro h
    cases h with
    | plain h => cases h
    | function h => exact h
  · exact .function

end Value.Within

/-- An allowed scope, or a value within the allowed scopes. -/
def Place.Within (allowed : ScopeId → Prop) : Place → Prop
  | scope id => allowed id
  | value v => v.Within allowed

namespace Store

/-- Allowed scopes bind values within the allowed scopes only, and stand inside allowed ones. -/
structure Closed (allowed : ScopeId → Prop) (s : Store) : Prop where
  binding : ∀ {id name v}, allowed id → (name, v) ∈ (s.scope id).bindings → v.Within allowed
  outer : ∀ {id around}, allowed id → (s.scope id).outer = some around → allowed around

variable {s : Store} {allowed : ScopeId → Prop} {p q : Place}

theorem Closed.leads (h : s.Closed allowed) (inside : p.Within allowed) (step : s.Leads p q) :
    q.Within allowed := by
  cases step with
  | binding bound => exact h.binding inside bound
  | outer around => exact h.outer inside around
  | element mem => exact Value.Within.array_iff.1 inside _ mem
  | key mem => exact (Value.Within.hash_iff.1 inside _ mem).1
  | entry mem => exact (Value.Within.hash_iff.1 inside _ mem).2
  | closure => exact Value.Within.function_iff.1 inside

theorem Closed.reaches (h : s.Closed allowed) (inside : p.Within allowed) (steps : s.Reaches p q) :
    q.Within allowed := by
  induction steps with
  | refl => exact inside
  | tail _ step ih => exact h.leads ih step

theorem Closed.onlyOrdinary (h : s.Closed allowed) (inside : p.Within allowed) :
    s.OnlyOrdinary p :=
  fun _ steps => (h.reaches (q := .value _) inside steps).isOrdinary

/-- A value from which none but ordinary values are reached is within the scopes it reaches. -/
theorem within_of_onlyOrdinary (v : Value) (ordinary : s.OnlyOrdinary (.value v))
    (reached : ∀ id, s.Reaches (.value v) (.scope id) → allowed id) : v.Within allowed :=
  match v, ordinary, reached with
  | .null .shared, _, _ | .int _, _, _ | .bool _ .shared, _, _ | .str _, _, _ | .builtin _, _, _
  | .quote _ _, _, _ => .plain rfl
  | .array _ _, ordinary, reached =>
    .array fun w mem => within_of_onlyOrdinary w (ordinary.leads (.element mem))
      fun id steps => reached id (.head (.element mem) steps)
  | .hash _ entries, ordinary, reached =>
    .hash
      (fun entry mem => within_of_onlyOrdinary entry.2.1 (ordinary.leads (.key mem))
        fun id steps => reached id (.head (.key mem) steps))
      (fun entry mem => within_of_onlyOrdinary entry.2.2 (ordinary.leads (.entry mem))
        fun id steps => reached id (.head (.entry mem) steps))
  | .function _ _ _ _, _, reached => .function (reached _ (.single .closure))
  | .macroValue _ _ _ _, ordinary, _ => nomatch ordinary _ .refl
  | .error _, ordinary, _ | .null (.other _), ordinary, _ | .bool _ (.other _), ordinary, _ =>
    nomatch ordinary _ .refl
termination_by sizeOf v
decreasing_by
  · have smaller := List.sizeOf_lt_of_mem mem
    simp only [Value.array.sizeOf_spec]
    omega
  all_goals
    have smaller := List.sizeOf_lt_of_mem mem
    obtain ⟨_, _, _⟩ := entry
    simp only [Value.hash.sizeOf_spec, Prod.mk.sizeOf_spec] at smaller ⊢
    omega

/-- Where none but ordinary values are reached, the scopes that are reached are closed. -/
theorem closed_of_onlyOrdinary (ordinary : s.OnlyOrdinary p) :
    s.Closed fun id => s.Reaches p (.scope id) where
  binding {_ _ v} reached bound :=
    have steps : s.Reaches p (.value v) := .tail reached (.binding bound)
    within_of_onlyOrdinary v (ordinary.reaches steps) fun _ later => steps.trans later
  outer reached around := .tail reached (.outer around)

/-- A name that is bound in or around an allowed scope has a value within the allowed scopes. -/
theorem Closed.lookup (h : s.Closed allowed) {id : ScopeId} {name : Text} {v : Value}
    (inside : allowed id) (found : s.lookup id name = some v) : v.Within allowed := by
  induction id using Store.lookup.induct s name with
  | case1 id value bound =>
      rw [Store.lookup, bound] at found
      cases found
      exact h.binding inside (Assoc.mem_of_get? bound)
  | case2 id unbound outer older around ih =>
      rw [Store.lookup, unbound] at found
      simp only [around] at found
      exact ih (h.outer inside (outer_of_outer? around)) found
  | case3 id unbound around =>
      rw [Store.lookup, unbound] at found
      simp only [around] at found
      cases found

end Store

end MonkeyLang
