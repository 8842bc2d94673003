import MonkeyLang.Operator
import MonkeyLang.Quote

/-!
# Values that can be written

An integer with too many digits has no text, and neither has a value with such an integer inside. A
text with half of a surrogate pair in it has no UTF-8 form, so that it has no digest. Where other
values are written or digested the machine does not halt, unless a piece of program in them is without
end.

* `Value.avoids` says that nothing inside a value can lead to a halt.
* `Value.inspect_ne_error`, `Quote.literal_ne_halted` and `Operator.undigested_ne_halted` are the
  results, for every halt but the overflow.
-/

namespace MonkeyLang

namespace Value

variable (halt : Halt)

mutual

/-- Is there nothing inside the value that leads to the halt: no integer without a text, and no text
without a UTF-8 form? -/
def avoids : Value → Bool
  | int n => halt ≠ .overlong || ! Decimal.isOverlong n
  | str text => halt ≠ .unencodable || text.utf8?.isSome
  | array _ elements => allAvoid elements
  | hash _ entries => entriesAvoid entries
  | _ => true

/-- Is there nothing inside the values that leads to the halt? -/
def allAvoid : List Value → Bool
  | [] => true
  | v :: vs => avoids v && allAvoid vs

/-- Is there nothing inside the keys and the values of the entries that leads to the halt? -/
def entriesAvoid : List (HashKey × Value × Value) → Bool
  | [] => true
  | (_, key, value) :: entries => avoids key && avoids value && entriesAvoid entries

end

end Value

variable {halt : Halt}

theorem Value.exists_write? {n : Int} (h : (int n).avoids .overlong = true) :
    ∃ text, Decimal.write? n = some text := by
  simp only [avoids, ne_eq, not_true_eq_false, decide_false, Bool.false_or, Bool.not_eq_true'] at h
  unfold Decimal.write?
  rw [h]
  exact ⟨_, rfl⟩

/-! ## Texts of values -/

section

variable {α β : Type} {text : Except Halt α}

theorem bind_ne_error {next : α → Except Halt β} (first : text ≠ .error halt)
    (then_ : ∀ a, next a ≠ .error halt) : (text >>= next) ≠ .error halt := by
  cases text with
  | ok a => exact then_ a
  | error halt' => exact fun same => first (congrArg _ (Except.error.inj same))

theorem mapM_ne_error {f : β → Except Halt α} (each : ∀ b, f b ≠ .error halt) (bs : List β) :
    bs.mapM f ≠ .error halt := by
  induction bs with
  | nil => exact nofun
  | cons b bs ih =>
      rw [List.mapM_cons]
      exact bind_ne_error (each b) fun _ => bind_ne_error ih fun _ => nofun

end

namespace Pieces

/-- A piece of program has no text only for want of an end. -/
theorem text_ne_error (other : halt ≠ .overflow) (p : Pieces) (node : Node) :
    p.text node ≠ .error halt := by
  unfold Pieces.text
  cases p.text? node with
  | some text => exact nofun
  | none => exact fun same => other (Except.error.inj same).symm

theorem codeText_ne_error (other : halt ≠ .overflow) (p : Pieces) (keyword : Text)
    (parameters : List Node) (body : Node) : p.codeText keyword parameters body ≠ .error halt :=
  bind_ne_error (mapM_ne_error (p.text_ne_error other) parameters) fun _ =>
    bind_ne_error (p.text_ne_error other body) fun _ => nofun

end Pieces

namespace Value

variable {pieces : Pieces}

theorem inspect_int_ne_error {n : Int} (h : (int n).avoids halt = true) :
    (int n).inspect pieces ≠ .error halt := by
  intro same
  rw [inspect] at same
  unfold Decimal.write at same
  split at same
  · cases same
  · next none =>
    cases same
    obtain ⟨text, shown⟩ := exists_write? h
    cases none.symm.trans shown

mutual

/-- The text of a value is not missing for a halt that nothing inside the value leads to. -/
theorem inspect_ne_error (other : halt ≠ .overflow) : ∀ v : Value, v.avoids halt = true →
    v.inspect pieces ≠ .error halt
  | .int _ => inspect_int_ne_error
  | .array _ elements => fun h => by
    rw [avoids] at h
    rw [inspect]
    exact bind_ne_error (inspectElements_ne_error other elements h) fun _ => nofun
  | .hash _ entries => fun h => by
    rw [avoids] at h
    rw [inspect]
    exact bind_ne_error (inspectEntries_ne_error other entries h) fun _ => nofun
  | .function _ parameters body _ => fun _ => by
    rw [inspect]
    exact pieces.codeText_ne_error other "fn" parameters body
  | .macroValue _ parameters body _ => fun _ => by
    rw [inspect]
    exact pieces.codeText_ne_error other "macro" parameters body
  | .quote _ node => fun _ => by
    rw [inspect]
    exact bind_ne_error (pieces.text_ne_error other node) fun _ => nofun
  | .null _ | .bool _ _ | .str _ | .builtin _ | .error _ => fun _ => by
    rw [inspect]
    exact nofun

theorem inspectElements_ne_error (other : halt ≠ .overflow) : ∀ vs : List Value,
    allAvoid halt vs = true → inspectElements pieces vs ≠ .error halt
  | [] => fun _ => by
    rw [inspectElements]
    exact nofun
  | v :: vs => fun h => by
    rw [allAvoid, Bool.and_eq_true] at h
    rw [inspectElements]
    exact bind_ne_error (inspect_ne_error other v h.1) fun _ =>
      bind_ne_error (inspectElements_ne_error other vs h.2) fun _ => nofun

theorem inspectEntries_ne_error (other : halt ≠ .overflow) :
    ∀ entries : List (HashKey × Value × Value), entriesAvoid halt entries = true →
      inspectEntries pieces entries ≠ .error halt
  | [] => fun _ => by
    rw [inspectEntries]
    exact nofun
  | (_, key, value) :: entries => fun h => by
    rw [entriesAvoid, Bool.and_eq_true, Bool.and_eq_true] at h
    rw [inspectEntries]
    exact bind_ne_error (inspect_ne_error other key h.1.1) fun _ =>
      bind_ne_error (inspect_ne_error other value h.1.2) fun _ =>
        bind_ne_error (inspectEntries_ne_error other entries h.2) fun _ => nofun

end

end Value

/-- The literal of a value is not missing for a halt that nothing inside the value leads to. -/
theorem Quote.literal_ne_halted {v : Value} (h : v.avoids halt = true) :
    Quote.literal v ≠ .error (.halted halt) := by
  unfold Quote.literal
  cases v with
  | int n =>
      dsimp only
      split
      · exact nofun
      · next none =>
        intro same
        cases same
        obtain ⟨text, shown⟩ := Value.exists_write? h
        cases none.symm.trans shown
  | _ => exact nofun

/-- The digest of a value is not missing for a halt that nothing inside the value leads to. -/
theorem Operator.undigested_ne_halted {v : Value} (h : v.avoids halt = true)
    (keyless : v.hashKey? = none) : Operator.undigested v ≠ .halted halt := by
  cases v with
  | str text =>
      intro same
      cases same
      rw [Value.hashKey?, HashKey.ofText?, Option.map_eq_none_iff] at keyless
      rw [Value.avoids, keyless] at h
      cases h
  | _ => exact nofun

end MonkeyLang
