import MonkeyLang.Proofs.Machine.Runs
import MonkeyLang.Proofs.Node.Like

/-!
# Pairs of runs

Two computations run on two states that are related, and what they come to is related again: their
results, their exits and the states they leave. How states and exits are related depends on a number
that grows as the runs go on, the number of pieces there are.

* `Pairing` says how states and exits are related, `Pairing.Paired` that two computations are.
* `Pairing.Paired.bind` and `Pairing.Paired.tryCatch` are the rules for sequences and handlers, and
  `Pairing.coupling` brings in the transformations of trees.
-/

namespace MonkeyLang

/-- How states and exits of two runs are related. -/
structure Pairing (ε σ : Type) where
  States : Nat → σ → σ → Prop
  Exits : Nat → ε → ε → Prop

namespace Pairing

variable {ε σ α β : Type} {J : Pairing ε σ} {b b' : Nat}

/-- The runs end in related ways. -/
inductive Ends (J : Pairing ε σ) (b : Nat) (post : Nat → α → α → Prop) :
    EStateM.Result ε σ α → EStateM.Result ε σ α → Prop
  | ok {b' : Nat} {a a' : α} {s s' : σ} : b ≤ b' → J.States b' s s' → post b' a a' →
    Ends J b post (.ok a s) (.ok a' s')
  | error {b' : Nat} {exit exit' : ε} {s s' : σ} : b ≤ b' → J.States b' s s' →
    J.Exits b' exit exit' → Ends J b post (.error exit s) (.error exit' s')

theorem Ends.of_le {post : Nat → α → α → Prop} {r r' : EStateM.Result ε σ α} (more : b ≤ b')
    (h : J.Ends b' post r r') : J.Ends b post r r' := by
  cases h with
  | ok more' states holds => exact .ok (Nat.le_trans more more') states holds
  | error more' states exits => exact .error (Nat.le_trans more more') states exits

/-- From related states the computations come to related ends. -/
def Paired (J : Pairing ε σ) (b : Nat) (c c' : EStateM ε σ α) (post : Nat → α → α → Prop) : Prop :=
  ∀ s s', J.States b s s' → J.Ends b post (c.run s) (c'.run s')

namespace Paired

variable {c c' : EStateM ε σ α} {post : Nat → α → α → Prop}

theorem pure {a a' : α} (h : post b a a') : J.Paired b (Pure.pure a) (Pure.pure a') post :=
  fun _ _ states => .ok (Nat.le_refl b) states h

theorem throw {exit exit' : ε} (h : J.Exits b exit exit') :
    J.Paired b (MonadExcept.throw exit) (MonadExcept.throw exit') post :=
  fun _ _ states => .error (Nat.le_refl b) states h

theorem bind {next next' : α → EStateM ε σ β} {mid : Nat → α → α → Prop}
    {post : Nat → β → β → Prop} (first : J.Paired b c c' mid)
    (then_ : ∀ b' a a', b ≤ b' → mid b' a a' → J.Paired b' (next a) (next' a') post) :
    J.Paired b (c >>= next) (c' >>= next') post := by
  intro s s' states
  have ended := first s s' states
  rw [EStateM.run_bind, EStateM.run_bind]
  generalize c.run s = r, c'.run s' = r' at ended ⊢
  cases ended with
  | ok more states₁ holds => exact (then_ _ _ _ more holds _ _ states₁).of_le more
  | error more states₁ exits => exact .error more states₁ exits

theorem mono {post' : Nat → α → α → Prop} (h : J.Paired b c c' post)
    (weaker : ∀ b' a a', b ≤ b' → post b' a a' → post' b' a a') : J.Paired b c c' post' := by
  intro s s' states
  have ended := h s s' states
  generalize c.run s = r, c'.run s' = r' at ended ⊢
  cases ended with
  | ok more states₁ holds => exact .ok more states₁ (weaker _ _ _ more holds)
  | error more states₁ exits => exact .error more states₁ exits

/-- Two handlers take over where the runs have ended. -/
theorem tryCatch {handler handler' : ε → EStateM ε σ α} (h : J.Paired b c c' post)
    (handled : ∀ b' exit exit', b ≤ b' → J.Exits b' exit exit' →
      J.Paired b' (handler exit) (handler' exit') post) :
    J.Paired b (MonadExcept.tryCatch c handler) (MonadExcept.tryCatch c' handler') post := by
  intro s s' states
  have ended := h s s' states
  rw [run_tryCatch, run_tryCatch]
  generalize c.run s = r, c'.run s' = r' at ended ⊢
  cases ended with
  | ok more states₁ holds => exact .ok more states₁ holds
  | error more states₁ exits => exact (handled _ _ _ more exits _ _ states₁).of_le more

theorem get_bind {next next' : σ → EStateM ε σ α}
    (then_ : ∀ s s', J.States b s s' → J.Paired b (next s) (next' s') post) :
    J.Paired b (get >>= next) (get >>= next') post :=
  fun s s' states => then_ s s' states s s' states

theorem modifyGet {f f' : σ → α × σ}
    (step : ∀ s s', J.States b s s' → ∃ b', b ≤ b' ∧ J.States b' (f s).2 (f' s').2 ∧
      post b' (f s).1 (f' s').1) :
    J.Paired b (MonadState.modifyGet f) (MonadState.modifyGet f') post := by
  intro s s' states
  obtain ⟨b', more, states', holds⟩ := step s s' states
  exact .ok more states' holds

/-- Runs that are paired under more conditions are paired, if the first states satisfy them. -/
theorem of_stronger {J' : Pairing ε σ} (h : J'.Paired b c c' post)
    (starts : ∀ s s', J.States b s s' → J'.States b s s')
    (states : ∀ b' s s', J'.States b' s s' → J.States b' s s')
    (exits : ∀ b' exit exit', J'.Exits b' exit exit' → J.Exits b' exit exit') :
    J.Paired b c c' post := by
  intro s s' related
  have ended := h s s' (starts s s' related)
  generalize c.run s = r, c'.run s' = r' at ended ⊢
  cases ended with
  | ok more related₁ holds => exact .ok more (states _ _ _ related₁) holds
  | error more related₁ ended => exact .error more (states _ _ _ related₁) (exits _ _ _ ended)

end Paired

theorem coupling (J : Pairing ε σ) :
    Coupling fun α b (c c' : EStateM ε σ α) post => J.Paired b c c' post where
  pure h := .pure h
  bind first then_ := .bind first then_

end Pairing

end MonkeyLang
