import MonkeyLang.Value

/-!
# The values in a value

An array holds its elements, a hash its keys and the values they have. These may hold values in
their turn.

* `Value.elements` are the values right in a value, `Value.Part` says that a value is somewhere in it.
* `Value.elementInduction` is induction on values by their elements.
-/

namespace MonkeyLang

namespace Value

/-- The values right in a value. -/
def elements : Value → List Value
  | array _ vs => vs
  | hash _ es => es.flatMap fun entry => [entry.2.1, entry.2.2]
  | _ => []

theorem mem_elements_hash {serial : Nat} {es : List (HashKey × Value × Value)} {v : Value} :
    v ∈ (hash serial es).elements ↔ ∃ entry ∈ es, v = entry.2.1 ∨ v = entry.2.2 := by
  simp [elements]

theorem sizeOf_elements {u v : Value} (h : u ∈ v.elements) : sizeOf u < sizeOf v := by
  cases v with
  | array serial vs =>
      have mem : u ∈ vs := h
      have smaller := List.sizeOf_lt_of_mem mem
      simp only [array.sizeOf_spec]
      omega
  | hash serial es =>
      obtain ⟨⟨key, u, v⟩, mem, same⟩ := mem_elements_hash.1 h
      have smaller := List.sizeOf_lt_of_mem mem
      simp only [hash.sizeOf_spec, Prod.mk.sizeOf_spec] at smaller ⊢
      rcases same with rfl | rfl <;> omega
  | _ => cases h

/-- What holds of a value if it holds of all values right in it holds of every value. -/
theorem elementInduction {P : Value → Prop} (step : ∀ v, (∀ u ∈ v.elements, P u) → P v)
    (v : Value) : P v :=
  step v fun u _ => elementInduction step u
termination_by sizeOf v
decreasing_by exact sizeOf_elements ‹_›

/-- The value `w` is `v` or is somewhere in it. -/
inductive Part (w : Value) : Value → Prop
  | self : Part w w
  | inside {u v : Value} : u ∈ v.elements → Part w u → Part w v

/-- A property of all parts of a value is one of the value itself and of all parts of what is right
in it. -/
theorem forall_part_iff {P : Value → Prop} {v : Value} :
    (∀ w : Value, w.Part v → P w) ↔ P v ∧ ∀ u ∈ v.elements, ∀ w : Value, w.Part u → P w := by
  constructor
  · exact fun h => ⟨h v .self, fun u mem w part => h w (.inside mem part)⟩
  · rintro ⟨here, below⟩ w part
    cases part with
    | self => exact here
    | inside mem part => exact below _ mem w part

end Value

end MonkeyLang
