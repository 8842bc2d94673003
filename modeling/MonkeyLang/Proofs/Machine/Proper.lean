import MonkeyLang.Machine
import MonkeyLang.Proofs.Node.Proper

/-!
# Proper machines

A value is proper if the pieces of program in it are: the parameters and the body of a function or
a macro, and the tree of a quotation. On a proper machine all bound values are proper, and every
piece that has a role is a proper node of that category.

* `Value.Proper` and `Machine.Proper` are these properties.
* The lemmas under `Machine.Proper` say what the steps of a machine do to it.
-/

namespace MonkeyLang

open Grammar

/-- All program in the value is proper. A fault is no value of a program. -/
inductive Value.Proper (roles : Roles) : Value → Prop
  | null : Proper roles .null
  | int {n : Int} : Proper roles (.int n)
  | bool {b : Bool} : Proper roles (.bool b)
  | str {s : Text} : Proper roles (.str s)
  | builtin {b : Builtin} : Proper roles (.builtin b)
  | array {serial : Nat} {elements : List Value} :
    (∀ v ∈ elements, Proper roles v) → Proper roles (.array serial elements)
  | hash {serial : Nat} {entries : List (HashKey × Value × Value)} :
    (∀ entry ∈ entries, Proper roles entry.2.1) → (∀ entry ∈ entries, Proper roles entry.2.2) →
    Proper roles (.hash serial entries)
  | function {serial : Nat} {parameters : List Node} {body : Node} {scope : ScopeId} :
    (∀ p ∈ parameters, p.Proper roles .parameter) → body.Proper roles .block →
    Proper roles (.function serial parameters body scope)
  | quote {serial : Nat} {node : Node} :
    node.Proper roles .expression → Proper roles (.quote serial node)
  | macroValue {serial : Nat} {parameters : List Node} {body : Node} {scope : ScopeId} :
    (∀ p ∈ parameters, p.Proper roles .parameter) → body.Proper roles .block →
    Proper roles (.macroValue serial parameters body scope)

theorem Value.Proper.mono {roles roles' : Roles} {v : Value} (h : v.Proper roles)
    (more : roles.Le roles') : v.Proper roles' := by
  induction h with
  | null => exact .null
  | int => exact .int
  | bool => exact .bool
  | str => exact .str
  | builtin => exact .builtin
  | array _ ih => exact .array ih
  | hash _ _ ihKey ihValue => exact .hash ihKey ihValue
  | function parameters body =>
      exact .function (fun p mem => (parameters p mem).mono more) (body.mono more)
  | quote node => exact .quote (node.mono more)
  | macroValue parameters body =>
      exact .macroValue (fun p mem => (parameters p mem).mono more) (body.mono more)

/-- The bound values and the pieces that have roles are proper. -/
structure Machine.Proper (roles : Roles) (m : Machine) : Prop where
  bound : ∀ {id name v}, (name, v) ∈ (m.store.scope id).bindings → v.Proper roles
  inside : ∀ {id category}, roles id = some category → id < m.pieces.nextId
  held : ∀ {id category}, roles id = some category → (m.pieces.get id).Proper roles category

namespace Machine.Proper

variable {roles : Roles} {m m' : Machine}

/-- Only the scopes and the pieces count. -/
theorem of_eq (h : m.Proper roles) (store : m'.store = m.store) (pieces : m'.pieces = m.pieces) :
    m'.Proper roles where
  bound mem := h.bound (store ▸ mem)
  inside role := pieces ▸ h.inside role
  held role := pieces ▸ h.held role

theorem remark (h : m.Proper roles) (r : Remark) : (m.remark r).Proper roles := h.of_eq rfl rfl

/-- The next piece has no role yet. -/
theorem roles_nextId (h : m.Proper roles) : roles m.pieces.nextId = none := by
  cases role : roles m.pieces.nextId with
  | none => rfl
  | some category => exact absurd (h.inside role) (Nat.lt_irrefl _)

theorem lookup (h : m.Proper roles) {id : ScopeId} {name : Text} {v : Value}
    (found : m.store.lookup id name = some v) : v.Proper roles := by
  obtain ⟨id, bound⟩ := Store.exists_binding_of_lookup found
  exact h.bound bound

theorem bind (h : m.Proper roles) {id : ScopeId} {name : Text} {v : Value}
    (proper : v.Proper roles) : (m.bind id name v).Proper roles where
  bound {other name' w} mem := by
    simp only [Machine.bind, Store.scope_bind] at mem
    split at mem
    · rcases Assoc.mem_insert mem with old | new
      · exact h.bound old
      · cases new
        exact proper
    · exact h.bound mem
  inside := h.inside
  held := h.held

theorem enter (h : m.Proper roles) {outer : Option ScopeId} {bindings : Assoc Text Value}
    (proper : ∀ b ∈ bindings, b.2.Proper roles) : (m.enter outer bindings).Proper roles where
  bound {id name v} mem := by
    simp only [Machine.enter, Store.scope_enter] at mem
    split at mem
    · exact proper _ mem
    · exact h.bound mem
  inside := h.inside
  held := h.held

/-- A new piece gets the role of the node it is. -/
theorem addPiece (h : m.Proper roles) {node : Node} {category : Category}
    (proper : node.Proper roles category) :
    ({ m with pieces := m.pieces.add node } : Machine).Proper
      (roles.add m.pieces.nextId category) := by
  have more : roles.Le (roles.add m.pieces.nextId category) := Roles.le_add h.roles_nextId
  have grown : (m.pieces.add node).nextId = m.pieces.nextId + 1 := by
    simp [Pieces.nextId, Pieces.add]
  refine ⟨fun mem => (h.bound mem).mono more, fun role => ?_, fun role => ?_⟩
  · dsimp only
    rw [grown]
    unfold Roles.add at role
    split at role
    · next same => exact same ▸ Nat.lt_succ_self _
    · exact Nat.lt_succ_of_lt (h.inside role)
  · dsimp only
    rw [Pieces.get_add]
    unfold Roles.add at role
    split at role
    · next same =>
        cases role
        rw [if_pos same]
        exact proper.mono more
    · next old =>
        rw [if_neg old]
        exact (h.held role).mono more

/-- A piece becomes another node of its role. -/
theorem setPiece (h : m.Proper roles) {id : PieceId} {node : Node} {category : Category}
    (role : roles id = some category) (proper : node.Proper roles category) :
    ({ m with pieces := m.pieces.set id node } : Machine).Proper roles := by
  refine ⟨h.bound, fun role => ?_, fun role' => ?_⟩
  · rw [Pieces.nextId_set]
    exact h.inside role
  · dsimp only
    rw [Pieces.get_set]
    split
    · next same =>
        obtain ⟨rfl, -⟩ := same
        rw [role] at role'
        cases role'
        exact proper
    · exact h.held role'

end Machine.Proper

end MonkeyLang
