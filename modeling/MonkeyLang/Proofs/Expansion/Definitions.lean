import MonkeyLang.Expansion

/-!
# Definitions of macros leave the program

The statements at the top level of a program are parted into definitions of macros and others. The
others are left, in their order; the definitions are bound, in theirs, in one scope. A macro literal
that stands deeper is part of a statement that is left, and binds nothing.

* `MacroDefinition.Parts` says what becomes of the statements.
* `MacroDefinition.update` is what becomes of the bindings, and `MacroDefinition.get?_update` says that
  of the definitions of one name the last one counts.
* `defineMacros_parts` is the result.
-/

namespace MonkeyLang

namespace MacroDefinition

/-! ## Statements -/

/-- Some statements are parted, in their order, into those that are no definitions of macros, and the
definitions. -/
inductive Parts : List Node → List Node → List MacroDefinition → Prop
  | nil : Parts [] [] []
  | definition {t u : Option Token} {name : Name} {parameters : List Node} {body : Node}
      {statements left : List Node} {definitions : List MacroDefinition} :
    Parts statements left definitions →
    Parts (.letStmt t name (.macroLit u parameters body) :: statements) left
      (⟨name.text, parameters, body⟩ :: definitions)
  | other {s : Node} {statements left : List Node} {definitions : List MacroDefinition} :
    (∀ t name u parameters body, s ≠ .letStmt t name (.macroLit u parameters body)) →
    Parts statements left definitions → Parts (s :: statements) (s :: left) definitions

theorem ofStatement?_eq_none_iff {s : Node} :
    ofStatement? s = none ↔
      ∀ t name u parameters body, s ≠ .letStmt t name (.macroLit u parameters body) := by
  constructor
  · rintro none t name u parameters body rfl
    cases none
  · intro other
    unfold ofStatement?
    split
    · exact absurd rfl (other _ _ _ _ _)
    · rfl

theorem parts (statements : List Node) :
    Parts statements (statements.filter fun s => (ofStatement? s).isNone)
      (statements.filterMap ofStatement?) := by
  induction statements with
  | nil => exact .nil
  | cons s statements ih =>
    cases definition : ofStatement? s with
    | none =>
      rw [List.filter_cons_of_pos (by simp [definition]), List.filterMap_cons_none definition]
      exact .other (ofStatement?_eq_none_iff.1 definition) ih
    | some d =>
      rw [List.filter_cons_of_neg (by simp [definition]), List.filterMap_cons_some definition]
      unfold ofStatement? at definition
      split at definition <;> cases definition
      exact .definition ih

/-! ## Bindings -/

/-- The macro that a definition binds in a scope. -/
def value (d : MacroDefinition) (serial : Nat) (scope : ScopeId) : Value :=
  .macroValue serial d.parameters d.body scope

/-- The bindings of a scope when definitions have been bound in it, one after the other. The serial
numbers of the macros start with `serial`. -/
def update (scope : ScopeId) (serial : Nat) (definitions : List MacroDefinition)
    (bindings : Assoc Text Value) : Assoc Text Value :=
  (definitions.zipIdx serial).foldl (fun table p => table.insert p.1.name (p.1.value p.2 scope))
    bindings

/-- Of the definitions of a name the last one counts, and a name without definition keeps its
value. -/
theorem get?_update (scope : ScopeId) (serial : Nat) (definitions : List MacroDefinition)
    (bindings : Assoc Text Value) (name : Text) :
    (update scope serial definitions bindings).get? name =
      match ((definitions.zipIdx serial).filter (·.1.name = name)).getLast? with
      | some (d, i) => some (d.value i scope)
      | none => bindings.get? name := by
  unfold update
  generalize definitions.zipIdx serial = numbered
  induction numbered generalizing bindings with
  | nil => rfl
  | cons p numbered ih =>
    rw [List.foldl_cons, ih, Assoc.get?_insert]
    by_cases same : p.1.name = name
    · rw [List.filter_cons_of_pos (by simpa using same), if_pos same]
      cases numbered.filter (·.1.name = name) with
      | nil => rfl
      | cons q others =>
        rw [List.getLast?_cons_cons, List.getLast?_eq_some_getLast (List.cons_ne_nil q others)]
    · rw [List.filter_cons_of_neg (by simpa using same), if_neg same]

variable {scope : ScopeId} {definitions : List MacroDefinition}

/-- Definitions bind their names in one scope, and nothing else. -/
theorem scope_foldl_bind (definitions : List MacroDefinition) {s : Store}
    (inside : scope < s.nextId) (serial : Nat) (id : ScopeId) :
    ((definitions.zipIdx serial).foldl (fun s p => s.bind scope p.1.name (p.1.value p.2 scope)) s).scope
        id =
      if id = scope then
        ⟨update scope serial definitions (s.scope scope).bindings, (s.scope scope).outer⟩
      else s.scope id := by
  unfold update
  generalize definitions.zipIdx serial = numbered
  induction numbered generalizing s with
  | nil =>
    split
    · next same => rw [same]; rfl
    · rfl
  | cons p numbered ih =>
    rw [List.foldl_cons, ih (by rwa [Store.nextId_bind])]
    split
    · rw [Store.scope_bind, if_pos ⟨rfl, inside⟩]
      rfl
    · next other => rw [Store.scope_bind, if_neg fun both => other both.1.symm]

theorem nextId_foldl_bind (s : Store) (serial : Nat) :
    ((definitions.zipIdx serial).foldl (fun s p => s.bind scope p.1.name (p.1.value p.2 scope))
      s).nextId = s.nextId := by
  generalize definitions.zipIdx serial = numbered
  induction numbered generalizing s with
  | nil => rfl
  | cons p numbered ih => rw [List.foldl_cons, ih, Store.nextId_bind]

/-- The remark on a definition. -/
def remark (d : MacroDefinition) : Remark :=
  .macroDefined d.name (d.parameters.map Node.boundName)

/-- What definitions do to the machine: they bind macros with new serial numbers, and are remarked. -/
theorem foldl_defineMacro (m : Machine) :
    definitions.foldl (·.defineMacro scope ·) m =
      { store := (definitions.zipIdx m.nextSerial).foldl
          (fun s p => s.bind scope p.1.name (p.1.value p.2 scope)) m.store
        pieces := m.pieces
        nextSerial := m.nextSerial + definitions.length
        events := m.events ++ (definitions.map fun d => Event.remarked d.remark).toArray } := by
  induction definitions generalizing m with
  | nil => simp
  | cons d definitions ih =>
    rw [List.foldl_cons, ih, List.zipIdx_cons, List.foldl_cons]
    have events : (m.defineMacro scope d).events = m.events.push (.remarked d.remark) := rfl
    have serial : (m.defineMacro scope d).nextSerial = m.nextSerial + 1 := rfl
    rw [events, serial, List.length_cons, List.map_cons]
    rw [Machine.mk.injEq]
    exact ⟨rfl, rfl, by omega, by simp⟩

end MacroDefinition

open MacroDefinition (Parts update)

/-- The definitions of macros leave a program, whatever else is in it: all other statements stay, in
their order, and in the scope of macros one macro after the other is bound, whose own scope that is. No
other scope changes, and nothing is printed. When there are no definitions left, nothing happens. -/
theorem defineMacros_parts (m : Machine) (scope : ScopeId) (inside : scope < m.store.nextId)
    (statements : List Node) :
    ∃ left definitions m', m.defineMacros scope (.program statements) = (.program left, m') ∧
      Parts statements left definitions ∧
      (m'.store.scope scope).bindings =
        update scope m.nextSerial definitions (m.store.scope scope).bindings ∧
      (∀ name, (m'.store.scope scope).bindings.get? name =
        match ((definitions.zipIdx m.nextSerial).filter (·.1.name = name)).getLast? with
        | some (d, i) => some (.macroValue i d.parameters d.body scope)
        | none => (m.store.scope scope).bindings.get? name) ∧
      (m'.store.scope scope).outer = (m.store.scope scope).outer ∧
      (∀ id ≠ scope, m'.store.scope id = m.store.scope id) ∧
      m'.store.nextId = m.store.nextId ∧ m'.pieces = m.pieces ∧ m'.printed = m.printed ∧
      m'.defineMacros scope (.program left) = (.program left, m') := by
  have defined := m.defineMacros_eq scope (.program statements)
  have parted := MacroDefinition.parts statements
  have none : (statements.filter fun s =>
      (MacroDefinition.ofStatement? s).isNone).filterMap MacroDefinition.ofStatement? = [] :=
    List.filterMap_eq_nil_iff.2 fun s mem => by simpa using (List.mem_filter.1 mem).2
  have all : ((statements.filter fun s => (MacroDefinition.ofStatement? s).isNone).filter fun s =>
      (MacroDefinition.ofStatement? s).isNone) = statements.filter fun s =>
        (MacroDefinition.ofStatement? s).isNone := by
    simp
  dsimp only [Node.statements] at defined
  generalize (statements.filter fun s => (MacroDefinition.ofStatement? s).isNone) = left,
    statements.filterMap MacroDefinition.ofStatement? = definitions at defined parted none all
  have again (m' : Machine) : m'.defineMacros scope (.program left) = (.program left, m') := by
    rw [Machine.defineMacros_eq]
    dsimp only [Node.statements]
    rw [none, all]
    rfl
  refine ⟨_, _, _, defined, parted, ?_⟩
  have bound := MacroDefinition.scope_foldl_bind definitions inside m.nextSerial
  rw [MacroDefinition.foldl_defineMacro]
  refine ⟨?_, fun name => ?_, ?_, fun id other => ?_, ?_, rfl, ?_, again _⟩
  · rw [bound, if_pos rfl]
  · rw [bound, if_pos rfl]
    exact MacroDefinition.get?_update ..
  · rw [bound, if_pos rfl]
  · rw [bound, if_neg other]
  · exact MacroDefinition.nextId_foldl_bind m.store m.nextSerial
  · simp [Machine.printed]

/-- Two definitions of one name around a statement with a macro literal inside: the second one counts,
and the literal stays where it is. -/
theorem defineMacros_parts_redefinition :
    let m := Machine.empty.enter none []
    let literal (n : Int) : Node := .macroLit none [] (.block none [.exprStmt none (.int none n)])
    let inner : Node := .exprStmt none (.array none [literal 3])
    let statements : List Node :=
      [.letStmt none ⟨none, "a"⟩ (literal 1), inner, .letStmt none ⟨none, "a"⟩ (literal 2)]
    0 < m.store.nextId ∧ ∃ m', m.defineMacros 0 (.program statements) = (.program [inner], m') ∧
      Assoc.get? ("a" : Text) (m'.store.scope 0).bindings =
        some (.macroValue 1 [] (.block none [.exprStmt none (.int none 2)]) 0) := by
  intro m literal inner statements
  have inside : 0 < m.store.nextId := by decide
  obtain ⟨left, definitions, m', defined, parts, -, bound, -⟩ :=
    defineMacros_parts m 0 inside statements
  have run : (m.defineMacros 0 (.program statements)).1 = .program [inner] := by rfl
  rw [defined] at run
  cases run
  refine ⟨inside, m', defined, ?_⟩
  -- The statements can be parted in one way only.
  simp only [statements, literal, inner] at parts
  obtain ⟨d, d', rfl, second⟩ : ∃ d d', definitions = [d, d'] ∧ d.name = "a" ∧
      d' = ⟨"a", [], .block none [.exprStmt none (.int none 2)]⟩ := by
    cases parts with
    | definition parts =>
      cases parts with
      | other _ parts =>
        cases parts with
        | definition parts =>
          cases parts
          exact ⟨_, _, rfl, rfl, rfl⟩
  rw [bound "a"]
  simp [second]
  rfl

end MonkeyLang
