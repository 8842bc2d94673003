import MonkeyLang.Proofs.Evaluation.Expansion
import MonkeyLang.Proofs.Machine.Motion
import MonkeyLang.Proofs.Session.Reached
import MonkeyLang.Proofs.Value.Parts

/-!
# Numbers of values

Every new array, hash, function, quotation or macro gets the next serial number. So all values that
a machine holds have numbers that have been given out, and a number that is given out later is one
that none of them has.

* `Value.Numbered` and `Machine.Numbered` say so of values and of machines.
* `Eval.Invariant.numbered` states it as an invariant of evaluations.
* `Session.answer_numbered` says that every unit keeps it.
-/

namespace MonkeyLang

open Session (values macros machine₀)

/-! ## Values -/

/-- The numbers of the value and of all values in it are among the first `count`. -/
def Value.Numbered (count : Nat) (v : Value) : Prop := ∀ w : Value, w.Part v → w.Given count

namespace Value

variable {count count' serial : Nat} {v : Value}

theorem Given.mono (h : v.Given count) (more : count ≤ count') : v.Given count' := by
  cases v <;> first | trivial | exact Nat.lt_of_lt_of_le h more

namespace Numbered

theorem mono (h : v.Numbered count) (more : count ≤ count') : v.Numbered count' :=
  fun w part => (h w part).mono more

theorem iff_elements :
    v.Numbered count ↔ v.Given count ∧ ∀ u ∈ v.elements, u.Numbered count :=
  forall_part_iff

theorem hash_iff {entries : List (HashKey × Value × Value)} :
    (Value.hash serial entries).Numbered count ↔
      serial < count ∧ ∀ entry ∈ entries, entry.2.1.Numbered count ∧ entry.2.2.Numbered count := by
  rw [iff_elements]
  refine and_congr_right fun _ => ⟨fun h entry mem => ?_, fun h u mem => ?_⟩
  · exact ⟨h _ (mem_elements_hash.2 ⟨entry, mem, .inl rfl⟩),
      h _ (mem_elements_hash.2 ⟨entry, mem, .inr rfl⟩)⟩
  · obtain ⟨entry, entryMem, rfl | rfl⟩ := mem_elements_hash.1 mem
    · exact (h entry entryMem).1
    · exact (h entry entryMem).2

theorem of_given (given : v.Given count) (single : v.elements = []) : v.Numbered count :=
  iff_elements.2 ⟨given, single ▸ nofun⟩

end Numbered

end Value

/-! ## Machines -/

/-- The numbers of all bound values have been given out. -/
def Machine.Numbered (m : Machine) : Prop :=
  ∀ id name v, (name, v) ∈ (m.store.scope id).bindings → v.Numbered m.nextSerial

namespace Machine.Numbered

variable {m m' : Machine}

theorem of_store (h : m.Numbered) (store : m'.store = m.store)
    (more : m.nextSerial ≤ m'.nextSerial) : m'.Numbered := by
  intro id name v bound
  rw [store] at bound
  exact (h id name v bound).mono more

theorem bind (h : m.Numbered) (id : ScopeId) (name : Text) {v : Value}
    (numbered : v.Numbered m.nextSerial) : (m.bind id name v).Numbered := by
  intro other name' w bound
  simp only [Machine.bind, Store.scope_bind] at bound
  split at bound
  · rcases Assoc.mem_insert bound with old | new
    · exact h _ _ _ old
    · cases new
      exact numbered
  · exact h _ _ _ bound

theorem enter (h : m.Numbered) (outer : Option ScopeId) {bindings : Assoc Text Value}
    (numbered : ∀ b ∈ bindings, b.2.Numbered m.nextSerial) : (m.enter outer bindings).Numbered := by
  intro id name v bound
  simp only [Machine.enter, Store.scope_enter] at bound
  split at bound
  · exact numbered _ bound
  · exact h _ _ _ bound

end Machine.Numbered

/-- All values have numbers that have been given out, and no number is taken back. -/
def Eval.Invariant.numbered : Eval.Invariant where
  Heap m := m.Numbered
  Scope _ _ := True
  Value m v := v.Numbered m.nextSerial
  Moves _ m m' := m.nextSerial ≤ m'.nextSerial ∧ (m.Numbered → m'.Numbered)
  refl := ⟨Nat.le_refl _, id⟩
  trans first second := ⟨Nat.le_trans first.1 second.1, second.2 ∘ first.2⟩
  heap_moves move := move.2
  scope_moves _ _ := trivial
  value_moves move numbered := numbered.mono move.1
  quiet same more := ⟨more, fun h => h.of_store same more⟩
  bind _ _ numbered := ⟨Nat.le_refl _, fun h => h.bind _ _ numbered⟩
  enter _ _ numbered := ⟨Nat.le_refl _, fun h => h.enter _ numbered⟩
  inner _ _ := trivial
  leave entered ran := ⟨Nat.le_trans entered.1 ran.1, ran.2 ∘ entered.2⟩
  lookup h _ found :=
    have ⟨_, bound⟩ := Store.exists_binding_of_lookup found
    h _ _ _ bound
  plain {_ v} plain given := .of_given given (by cases v <;> first | rfl | cases plain)
  array given each := Value.Numbered.iff_elements.2 ⟨given, each⟩
  element h := (Value.Numbered.iff_elements.1 h).2
  hash given each := Value.Numbered.hash_iff.2 ⟨given, each⟩
  entry h := (Value.Numbered.hash_iff.1 h).2
  function given _ := .of_given given rfl
  closure _ := trivial

/-! ## Units -/

/-- Numbers are given out. -/
def Machine.numbering : Motion Machine where
  Holds m := m.Numbered
  Later m m' := m.nextSerial ≤ m'.nextSerial
  refl := Nat.le_refl _
  trans := Nat.le_trans

namespace Session

open Machine (numbering)

variable {m : Machine}

theorem numbering_of_keeps {e : ScopeId} {c : Eval Value}
    (keeps : m.Numbered → Eval.Invariant.numbered.Keeps e m c Eval.Invariant.numbered.Value) :
    numbering.Runs m (Expand.outcome c) fun m' outcome => outcome.toValue.Numbered m'.nextSerial := by
  intro holds
  have kept := keeps holds
  unfold Eval.Invariant.Keeps at kept
  rw [Expand.run_outcome]
  cases ran : c.run m with
  | ok v m' =>
      rw [ran] at kept
      exact ⟨kept.1.1, kept.1.2 holds, kept.2⟩
  | error exit m' =>
      rw [ran] at kept
      cases exit with
      | failed fault =>
          exact ⟨kept.1.1, kept.1.2 holds, .of_given trivial rfl⟩
      | returned v => exact ⟨kept.1.1, kept.1.2 holds, kept.2⟩
      | halted halt => exact ⟨kept.1.1, kept.1.2 holds⟩

theorem numbering_remark (r : Machine → Remark) :
    numbering.Runs m (modify fun m => m.remark (r m) : Expand Unit) fun _ _ => True :=
  .modifyGet (Nat.le_refl _) (fun holds => holds.of_store rfl (Nat.le_refl _)) trivial

theorem numbered_defineMacros (definitions : List MacroDefinition) (holds : m.Numbered) :
    m.nextSerial ≤ (definitions.foldl (·.defineMacro macros ·) m).nextSerial ∧
      (definitions.foldl (·.defineMacro macros ·) m).Numbered := by
  induction definitions generalizing m with
  | nil => exact ⟨Nat.le_refl _, holds⟩
  | cons d definitions ih =>
      have numbered : (Value.macroValue m.nextSerial d.parameters d.body macros).Numbered
          (m.nextSerial + 1) :=
        .of_given (Nat.lt_succ_self _) rfl
      have counted : Machine.Numbered { m with nextSerial := m.nextSerial + 1 } :=
        holds.of_store rfl (Nat.le_succ _)
      have defined : (m.defineMacro macros d).Numbered :=
        (counted.bind macros d.name numbered).of_store rfl (Nat.le_refl _)
      obtain ⟨more, holds'⟩ := ih defined
      exact ⟨Nat.le_of_succ_le more, holds'⟩

theorem replacement_numbered (depth : Nat) (name : Text) (parameters : List Node) (body : Node)
    (scope : ScopeId) (arguments : List Node) :
    numbering.Runs m (Expansion.replacement depth name parameters body scope arguments)
      fun _ _ => True := by
  unfold Expansion.replacement
  split
  · exact .throw
  · refine (numbering_of_keeps (e := scope) fun holds =>
      .expansionBody ⟨holds, trivial⟩ trivial depth _ _ _).bind fun outcome _ _ _ => ?_
    cases outcome with
    | failed fault => exact .throw
    | value v | returned v =>
        cases v with
        | quote serial node => exact .pure trivial
        | _ => exact .throw

theorem expansion_numbered (depth : Nat) (node : Node) :
    numbering.Runs m (Expansion.step depth macros node) fun _ _ => True := by
  unfold Expansion.step
  split
  · refine .get_bind ?_
    split
    · exact (replacement_numbered depth _ _ _ _ _).bind fun result _ _ _ =>
        (numbering_remark _).bind fun _ _ _ _ => .pure trivial
    · exact .pure trivial
  · exact .pure trivial

/-- Every unit keeps all values numbered, whatever becomes of the unit. -/
theorem answer_numbered (limit : Nat) (source : Text) (m : Machine) :
    numbering.Runs m (answer limit source) fun m' a => a.outcome.toValue.Numbered m'.nextSerial := by
  have read : numbering.Runs m (read source) fun _ _ => True := by
    unfold Session.read
    dsimp only
    split
    · exact .pure trivial
    · exact (numbering_remark _).bind fun _ _ _ _ => .throw
  refine read.bind fun program m₁ _ _ => ?_
  have defined : numbering.Runs m₁ (modifyGet (·.defineMacros macros program) : Expand Node)
      fun _ _ => True := by
    intro holds
    have numbered := numbered_defineMacros
      (program.statements.filterMap MacroDefinition.ofStatement?) holds
    have ran : (modifyGet (·.defineMacros macros program) : Expand Node).run m₁ =
        .ok (m₁.defineMacros macros program).1 (m₁.defineMacros macros program).2 := rfl
    rw [ran, Machine.defineMacros_eq]
    exact ⟨numbered.1, numbered.2, trivial⟩
  have expanded : numbering.Runs m₁ (expandProgram limit program) fun _ _ => True :=
    defined.bind fun left m₂ _ _ =>
      .transformM (R := fun _ _ => True) (fun _ _ _ _ => id) (fun _ => True)
        (fun _ _ _ _ => trivial) (fun _ => trivial)
        (fun _ _ _ _ _ _ => expansion_numbered limit _) trivial
  refine expanded.bind fun expanded m₂ _ _ => ?_
  have evaluated := numbering_of_keeps (m := m₂) fun holds =>
    Eval.Invariant.numbered.evaluate limit expanded values m₂ ⟨holds, trivial⟩
  refine Motion.Runs.bind (evaluated.tryCatch fun refusal m₃ _ => ?_) fun outcome _ _ numbered =>
    .pure numbered
  split
  · exact (numbering_remark _).bind fun _ _ _ _ => .pure (.of_given trivial rfl)
  · exact .throw

theorem numbered_machine₀ : machine₀.Numbered := by
  intro id name v bound
  rw [show machine₀.store.scope id = ⟨[], none⟩ by
    match id with
    | 0 | 1 | _ + 2 => rfl] at bound
  cases bound

end Session

end MonkeyLang
