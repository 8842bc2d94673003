import MonkeyLang.Assoc
import MonkeyLang.Value

/-!
# Scopes

A scope binds names to values and may stand inside an outer scope. All scopes live in one store,
numbered in the order in which they were opened, and are never closed: a function refers to the
scope it was made in. Only older scopes can be outer ones, so every chain of scopes ends.

* `Store.lookup` finds the innermost binding of a name.
* `Store.bind` binds a name in one scope and leaves all others as they are.
* `Store.enter` opens a scope.
-/

namespace MonkeyLang

/-- A scope: its bindings in the order in which the names first came, and the scope around it. -/
structure Scope where
  bindings : Assoc Text Value
  outer : Option ScopeId
deriving Repr

/-- All scopes. -/
structure Store where
  scopes : Array Scope
deriving Repr

namespace Store

/-- The store without scopes. -/
def empty : Store := ⟨#[]⟩

/-- A scope of the store; a number that is none has no bindings. -/
def scope (s : Store) (id : ScopeId) : Scope := s.scopes.getD id ⟨[], none⟩

/-- The number that the next scope gets. -/
def nextId (s : Store) : ScopeId := s.scopes.size

/-- Open a scope with some bindings, inside another one or by itself. -/
def enter (s : Store) (outer : Option ScopeId) (bindings : Assoc Text Value) : Store :=
  ⟨s.scopes.push ⟨bindings, outer⟩⟩

/-- Bind a name in a scope. -/
def bind (s : Store) (id : ScopeId) (name : Text) (value : Value) : Store :=
  ⟨s.scopes.modify id fun scope => { scope with bindings := scope.bindings.insert name value }⟩

/-- The scope around a scope, if it is an older one. -/
def outer? (s : Store) (id : ScopeId) : Option { outer : ScopeId // outer < id } :=
  match (s.scope id).outer with
  | some outer => if h : outer < id then some ⟨outer, h⟩ else none
  | none => none

/-- A scope and the scopes around it, innermost first. -/
def chain (s : Store) (id : ScopeId) : List ScopeId :=
  match s.outer? id with
  | some ⟨outer, _⟩ => id :: s.chain outer
  | none => [id]
termination_by id

/-- The innermost scope around `id` that binds a name. -/
def find? (s : Store) (id : ScopeId) (name : Text) : Option ScopeId :=
  if ((s.scope id).bindings.get? name).isSome then some id
  else match s.outer? id with
    | some ⟨outer, _⟩ => s.find? outer name
    | none => none
termination_by id

/-- The value of a name in a scope or around it. -/
def lookup (s : Store) (id : ScopeId) (name : Text) : Option Value :=
  match (s.scope id).bindings.get? name with
  | some value => some value
  | none => match s.outer? id with
    | some ⟨outer, _⟩ => s.lookup outer name
    | none => none
termination_by id

@[simp] theorem nextId_enter (s : Store) (outer : Option ScopeId) (bindings : Assoc Text Value) :
    (s.enter outer bindings).nextId = s.nextId + 1 := by
  simp [enter, nextId]

@[simp] theorem nextId_bind (s : Store) (id : ScopeId) (name : Text) (value : Value) :
    (s.bind id name value).nextId = s.nextId := by
  simp [bind, nextId]

theorem scope_enter (s : Store) (outer : Option ScopeId) (bindings : Assoc Text Value)
    (id : ScopeId) :
    (s.enter outer bindings).scope id = if id = s.nextId then ⟨bindings, outer⟩ else s.scope id := by
  simp only [scope, enter, nextId, Array.getD_eq_getD_getElem?, Array.getElem?_push]
  split <;> simp_all

theorem scope_bind (s : Store) (id other : ScopeId) (name : Text) (value : Value) :
    (s.bind id name value).scope other =
      if id = other ∧ id < s.nextId then
        ⟨(s.scope id).bindings.insert name value, (s.scope id).outer⟩
      else s.scope other := by
  simp only [scope, bind, nextId, Array.getD_eq_getD_getElem?, Array.getElem?_modify]
  by_cases same : id = other
  · subst same
    by_cases inside : id < s.scopes.size <;> simp [inside]
  · simp [same]

theorem outer_of_outer? {s : Store} {id : ScopeId} {outer : { outer : ScopeId // outer < id }}
    (h : s.outer? id = some outer) : (s.scope id).outer = some outer.1 := by
  unfold outer? at h
  split at h
  · next found =>
    split at h
    · cases h
      exact found
    · cases h
  · cases h

/-- A name that is found is bound in some scope. -/
theorem exists_binding_of_lookup {s : Store} {id : ScopeId} {name : Text} {value : Value}
    (found : s.lookup id name = some value) :
    ∃ id, (name, value) ∈ (s.scope id).bindings := by
  induction id using Store.lookup.induct s name with
  | case1 id bound_ bound =>
      rw [lookup, bound] at found
      cases found
      exact ⟨id, Assoc.mem_of_get? bound⟩
  | case2 id unbound outer older around ih =>
      rw [lookup, unbound] at found
      simp only [around] at found
      exact ih found
  | case3 id unbound around =>
      rw [lookup, unbound] at found
      simp only [around] at found
      cases found

end Store

end MonkeyLang
