import MonkeyLang.Proofs.Node.Sequential

/-!
# Runs of computations with a state and exits

A computation that ends by an exit keeps the state it has reached. So it makes sense to ask of any
run, however it ends, which state it leaves.

* `Preserves inv c`: a run of `c` that starts where `inv` holds ends where it holds.
* `Preserves.sequential` makes it a sequential property, `Preserves.tryCatch` lets handlers in.
-/

namespace MonkeyLang

variable {ε σ α β : Type}

/-- What comes behind an exit is not run. -/
theorem run_bind_of_exit {c : EStateM ε σ α} {next : α → EStateM ε σ β} {exit : ε} {s s' : σ}
    (exits : c.run s = .error exit s') : (c >>= next).run s = .error exit s' := by
  rw [EStateM.run_bind, exits]

/-- What comes behind a result is run in the state that has been reached. -/
theorem run_bind_of_ok {c : EStateM ε σ α} {next : α → EStateM ε σ β} {a : α} {s s' : σ}
    (ran : c.run s = .ok a s') : (c >>= next).run s = (next a).run s' := by
  rw [EStateM.run_bind, ran]

/-- A result behind a computation is one that comes behind the computation's own result. -/
theorem exists_of_run_bind {c : EStateM ε σ α} {next : α → EStateM ε σ β} {b : β} {s s' : σ}
    (ran : (c >>= next).run s = .ok b s') :
    ∃ a s₁, c.run s = .ok a s₁ ∧ (next a).run s₁ = .ok b s' := by
  rw [EStateM.run_bind] at ran
  cases first : c.run s with
  | ok a s₁ =>
      rw [first] at ran
      exact ⟨a, s₁, rfl, ran⟩
  | error exit s₁ =>
      rw [first] at ran
      cases ran

/-- An exit from a sequence is one from its first part, or from what comes behind the result of that. -/
theorem exit_of_run_bind {c : EStateM ε σ α} {next : α → EStateM ε σ β} {exit : ε} {s s' : σ}
    (exits : (c >>= next).run s = .error exit s') :
    c.run s = .error exit s' ∨
      ∃ a s₁, c.run s = .ok a s₁ ∧ (next a).run s₁ = .error exit s' := by
  rw [EStateM.run_bind] at exits
  cases first : c.run s with
  | ok a s₁ =>
      rw [first] at exits
      exact .inr ⟨a, s₁, rfl, exits⟩
  | error exit' s₁ =>
      rw [first] at exits
      cases exits
      exact .inl rfl

/-- The value that a run comes to, if it does. -/
def value? : EStateM.Result ε σ α → Option α
  | .ok a _ => some a
  | .error _ _ => none

theorem exists_of_value?_eq_some {r : EStateM.Result ε σ α} {a : α} (h : value? r = some a) :
    ∃ s, r = .ok a s := by
  cases r with
  | ok _ s =>
      cases h
      exact ⟨s, rfl⟩
  | error exit s => cases h

/-- Where the state stays as it is, each element of a list comes to its own result. -/
theorem run_mapM_of_still {f : α → EStateM ε σ β} {g : α → β} {as : List α} {s : σ}
    (each : ∀ a ∈ as, (f a).run s = .ok (g a) s) : (as.mapM f).run s = .ok (as.map g) s := by
  induction as with
  | nil => rfl
  | cons a as ih =>
      rw [List.mapM_cons, run_bind_of_ok (each a (.head _)),
        run_bind_of_ok (ih fun a mem => each a (.tail _ mem))]
      rfl

/-- Where nothing happens to any element of a list, nothing happens to the list. -/
theorem run_mapM_of_idle {f : α → EStateM ε σ α} {as : List α} {s : σ}
    (each : ∀ a ∈ as, (f a).run s = .ok a s) : (as.mapM f).run s = .ok as s := by
  have same := run_mapM_of_still (g := id) each
  rwa [List.map_id] at same

/-- A handler takes over in the state that the computation has reached. -/
theorem run_tryCatch (c : EStateM ε σ α) (handler : ε → EStateM ε σ α) (s : σ) :
    (tryCatch c handler).run s =
      match c.run s with
      | .ok a s' => .ok a s'
      | .error exit s' => (handler exit).run s' := by
  change EStateM.tryCatch c handler s = _
  unfold EStateM.tryCatch EStateM.run
  cases c s <;> rfl

/-- The state that a run ends in. -/
def finalState (r : EStateM.Result ε σ α) : σ :=
  match r with
  | .ok _ s | .error _ s => s

/-- A run that starts in a state with `inv` ends in one. -/
def Preserves (inv : σ → Prop) (c : EStateM ε σ α) : Prop :=
  ∀ s, inv s → inv (finalState (c.run s))

namespace Preserves

variable {inv : σ → Prop}

theorem pure (a : α) : Preserves inv (pure a : EStateM ε σ α) := fun _ h => h

theorem throw (exit : ε) : Preserves inv (throw exit : EStateM ε σ α) := fun _ h => h

theorem bind {c : EStateM ε σ α} {next : α → EStateM ε σ β} (first : Preserves inv c)
    (then_ : ∀ a, Preserves inv (next a)) : Preserves inv (c >>= next) := by
  intro s h
  have h₁ := first s h
  rw [EStateM.run_bind]
  cases hc : c.run s with
  | ok a s₁ =>
      rw [hc] at h₁
      exact then_ a s₁ h₁
  | error exit s₁ =>
      rw [hc] at h₁
      exact h₁

theorem tryCatch {c : EStateM ε σ α} {handler : ε → EStateM ε σ α} (h : Preserves inv c)
    (handled : ∀ exit, Preserves inv (handler exit)) :
    Preserves inv (tryCatch c handler) := by
  intro s hs
  have h₁ := h s hs
  rw [run_tryCatch]
  cases hc : c.run s with
  | ok a s₁ =>
      rw [hc] at h₁
      exact h₁
  | error exit s₁ =>
      rw [hc] at h₁
      exact handled exit s₁ h₁

theorem get : Preserves inv (get : EStateM ε σ σ) := fun _ h => h

theorem modifyGet {f : σ → α × σ} (h : ∀ s, inv s → inv (f s).2) :
    Preserves inv (modifyGet f : EStateM ε σ α) :=
  fun s hs => h s hs

theorem sequential : Sequential fun α (c : EStateM ε σ α) => Preserves inv c :=
  ⟨fun a => pure a, fun first then_ => bind first then_⟩

end Preserves

end MonkeyLang
