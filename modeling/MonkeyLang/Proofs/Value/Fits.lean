import MonkeyLang.Proofs.Value.Reach

/-!
# Values that hold allowed scopes and trees

A value may hold scopes and trees, by itself or in the values it holds. Limits say which of them are
allowed. If all that the allowed scopes bind keeps to the limits, so does all that can be reached from
an allowed scope.

* `Value.Fits L v`: the value `v` keeps to the limits `L`.
* `Store.Fits L s`: so does all that is bound in allowed scopes.
* `Store.Fits.reaches` and `Value.fits_of_reaches` lead from there to what can be reached, and back.
-/

namespace MonkeyLang

/-- A value that holds no scope, no tree and no other value. -/
def Value.isBare : Value → Bool
  | .null _ | .int _ | .bool _ _ | .str _ | .builtin _ | .error _ => true
  | _ => false

/-- The scopes and trees that values may hold. -/
structure Value.Limits where
  scope : ScopeId → Prop
  /-- The trees in quotations. -/
  quoted : Node → Prop
  /-- The parameters of functions. -/
  parameter : Node → Prop
  /-- The bodies of functions. -/
  code : Node → Prop
  /-- The parameters and bodies of macros. -/
  held : Node → Prop

/-- More is allowed. -/
structure Value.Limits.Le (L L' : Value.Limits) : Prop where
  scope : ∀ id, L.scope id → L'.scope id
  quoted : ∀ n, L.quoted n → L'.quoted n
  parameter : ∀ n, L.parameter n → L'.parameter n
  code : ∀ n, L.code n → L'.code n
  held : ∀ n, L.held n → L'.held n

/-- The value holds none but allowed scopes and trees. -/
inductive Value.Fits (L : Value.Limits) : Value → Prop
  | bare {v : Value} : v.isBare = true → Fits L v
  | array {serial : Nat} {elements : List Value} :
    (∀ v ∈ elements, Fits L v) → Fits L (.array serial elements)
  | hash {serial : Nat} {entries : List (HashKey × Value × Value)} :
    (∀ entry ∈ entries, Fits L entry.2.1) → (∀ entry ∈ entries, Fits L entry.2.2) →
    Fits L (.hash serial entries)
  | function {serial : Nat} {parameters : List Node} {body : Node} {scope : ScopeId} :
    L.scope scope → (∀ p ∈ parameters, L.parameter p) → L.code body →
    Fits L (.function serial parameters body scope)
  | quote {serial : Nat} {node : Node} : L.quoted node → Fits L (.quote serial node)
  | macroValue {serial : Nat} {parameters : List Node} {body : Node} {scope : ScopeId} :
    (∀ p ∈ parameters, L.held p) → L.held body →
    Fits L (.macroValue serial parameters body scope)

namespace Value.Fits

variable {L L' : Value.Limits} {v : Value} {serial : Nat}

theorem mono (h : v.Fits L) (more : L.Le L') : v.Fits L' := by
  induction h with
  | bare h => exact .bare h
  | array _ ih => exact .array ih
  | hash _ _ ihKey ihValue => exact .hash ihKey ihValue
  | function scope parameters body =>
      exact .function (more.scope _ scope) (fun p mem => more.parameter p (parameters p mem))
        (more.code _ body)
  | quote quoted => exact .quote (more.quoted _ quoted)
  | macroValue parameters body =>
      exact .macroValue (fun p mem => more.held p (parameters p mem)) (more.held _ body)

theorem array_iff {elements : List Value} :
    (Value.array serial elements).Fits L ↔ ∀ v ∈ elements, v.Fits L := by
  constructor
  · intro h
    cases h with
    | bare h => cases h
    | array h => exact h
  · exact .array

theorem hash_iff {entries : List (HashKey × Value × Value)} :
    (Value.hash serial entries).Fits L ↔
      ∀ entry ∈ entries, entry.2.1.Fits L ∧ entry.2.2.Fits L := by
  constructor
  · intro h
    cases h with
    | bare h => cases h
    | hash hkey hvalue => exact fun entry mem => ⟨hkey entry mem, hvalue entry mem⟩
  · exact fun h => .hash (fun entry mem => (h entry mem).1) fun entry mem => (h entry mem).2

theorem function_iff {parameters : List Node} {body : Node} {scope : ScopeId} :
    (Value.function serial parameters body scope).Fits L ↔
      L.scope scope ∧ (∀ p ∈ parameters, L.parameter p) ∧ L.code body := by
  constructor
  · intro h
    cases h with
    | bare h => cases h
    | function scope parameters body => exact ⟨scope, parameters, body⟩
  · exact fun ⟨scope, parameters, body⟩ => .function scope parameters body

theorem quote_iff {node : Node} : (Value.quote serial node).Fits L ↔ L.quoted node := by
  constructor
  · intro h
    cases h with
    | bare h => cases h
    | quote quoted => exact quoted
  · exact .quote

end Value.Fits

/-- The allowed scopes bind none but values that fit, and stand inside allowed scopes. -/
structure Store.Fits (L : Value.Limits) (s : Store) : Prop where
  binding : ∀ {id name v}, L.scope id → (name, v) ∈ (s.scope id).bindings → v.Fits L
  outer : ∀ {id around}, L.scope id → (s.scope id).outer = some around → L.scope around

theorem Store.Fits.mono {L L' : Value.Limits} {s : Store} (h : s.Fits L)
    (same : ∀ id, L'.scope id → L.scope id) (more : L.Le L') : s.Fits L' where
  binding allowed bound := (h.binding (same _ allowed) bound).mono more
  outer allowed around := more.scope _ (h.outer (same _ allowed) around)

theorem Store.Fits.lookup {L : Value.Limits} {s : Store} (h : s.Fits L) {id : ScopeId}
    {name : Text} {v : Value} (inside : L.scope id) (found : s.lookup id name = some v) :
    v.Fits L := by
  induction id using Store.lookup.induct s name with
  | case1 id value bound =>
      rw [Store.lookup, bound] at found
      cases found
      exact h.binding inside (Assoc.mem_of_get? bound)
  | case2 id unbound outer older around ih =>
      rw [Store.lookup, unbound] at found
      simp only [around] at found
      exact ih (h.outer inside (outer_of_outer? around)) found
  | case3 id unbound around =>
      rw [Store.lookup, unbound] at found
      simp only [around] at found
      cases found

/-! ## What can be reached -/

/-- What is at the place keeps to the limits. -/
def Place.Fits (L : Value.Limits) : Place → Prop
  | .scope id => L.scope id
  | .value v => v.Fits L

theorem Store.Fits.leads {L : Value.Limits} {s : Store} (h : s.Fits L) {p q : Place}
    (fits : p.Fits L) (step : s.Leads p q) : q.Fits L := by
  cases step with
  | binding bound => exact h.binding fits bound
  | outer around => exact h.outer fits around
  | element mem => exact Value.Fits.array_iff.1 fits _ mem
  | key mem => exact (Value.Fits.hash_iff.1 fits _ mem).1
  | entry mem => exact (Value.Fits.hash_iff.1 fits _ mem).2
  | closure => exact (Value.Fits.function_iff.1 fits).1

theorem Store.Fits.reaches {L : Value.Limits} {s : Store} (h : s.Fits L) {p q : Place}
    (fits : p.Fits L) (steps : s.Reaches p q) : q.Fits L := by
  induction steps with
  | refl => exact fits
  | tail _ step ih => exact h.leads ih step

/-- What a value holds by itself keeps to the limits. -/
def Value.FitsHere (L : Value.Limits) : Value → Prop
  | .function _ parameters body scope =>
    L.scope scope ∧ (∀ p ∈ parameters, L.parameter p) ∧ L.code body
  | .quote _ node => L.quoted node
  | .macroValue _ parameters body _ => (∀ p ∈ parameters, L.held p) ∧ L.held body
  | _ => True

/-- A value fits if all values that are reached from it do by themselves. -/
theorem Value.fits_of_reaches {L : Value.Limits} {s : Store} (v : Value)
    (each : ∀ w, s.Reaches (.value v) (.value w) → w.FitsHere L) : v.Fits L :=
  match v, each with
  | .null _, _ | .int _, _ | .bool _ _, _ | .str _, _ | .builtin _, _ | .error _, _ => .bare rfl
  | .array _ _, each =>
    .array fun w mem => fits_of_reaches w fun w' steps => each w' (.head (.element mem) steps)
  | .hash _ entries, each =>
    .hash
      (fun entry mem => fits_of_reaches entry.2.1 fun w' steps => each w' (.head (.key mem) steps))
      (fun entry mem => fits_of_reaches entry.2.2 fun w' steps => each w' (.head (.entry mem) steps))
  | .function _ _ _ _, each => .function (each _ .refl).1 (each _ .refl).2.1 (each _ .refl).2.2
  | .quote _ _, each => .quote (each _ .refl)
  | .macroValue _ _ _ _, each => .macroValue (each _ .refl).1 (each _ .refl).2
termination_by sizeOf v
decreasing_by
  · have smaller := List.sizeOf_lt_of_mem mem
    simp only [Value.array.sizeOf_spec]
    omega
  all_goals
    have smaller := List.sizeOf_lt_of_mem mem
    obtain ⟨_, _, _⟩ := entry
    simp only [Value.hash.sizeOf_spec, Prod.mk.sizeOf_spec] at smaller ⊢
    omega

/-- What is bound in the scopes that are reached fits if all that is reached does by itself. -/
theorem Store.fits_of_reaches {L : Value.Limits} {s : Store} {p : Place}
    (scopes : ∀ id, L.scope id ↔ s.Reaches p (.scope id))
    (each : ∀ v, s.Reaches p (.value v) → v.FitsHere L) : s.Fits L where
  binding {id name v} allowed bound := by
    have reached : s.Reaches p (.value v) := .tail ((scopes id).1 allowed) (.binding bound)
    exact Value.fits_of_reaches v fun w steps => each w (reached.trans steps)
  outer {id around} allowed found :=
    (scopes around).2 (.tail ((scopes id).1 allowed) (.outer found))

end MonkeyLang
