import MonkeyLang.Proofs.Machine.Runs
import MonkeyLang.Proofs.Node.Children

/-!
# Runs that move a state

A motion says what holds of a state, and which states it may become. What a computation comes to may
depend on the state; as long as it lasts when the state moves on, computations can be put together.

* `Motion.Runs` says of one computation in one state that it keeps to a motion.
* `Motion.Runs.transformM` is the rule for the transformation of a tree.
-/

namespace MonkeyLang

/-- What holds of a state, and how it may move. -/
structure Motion (σ : Type) where
  Holds : σ → Prop
  Later : σ → σ → Prop
  refl : ∀ {s}, Later s s
  trans : ∀ {s₁ s₂ s₃}, Later s₁ s₂ → Later s₂ s₃ → Later s₁ s₃

namespace Motion

variable {ε σ α β : Type} {M : Motion σ} {s : σ}

/-- However the computation ends, the state moves as it may; and if there is a result, it has a
property. -/
def Runs (M : Motion σ) (s : σ) (c : EStateM ε σ α) (post : σ → α → Prop) : Prop :=
  M.Holds s → match c.run s with
    | .ok a s' => M.Later s s' ∧ M.Holds s' ∧ post s' a
    | .error _ s' => M.Later s s' ∧ M.Holds s'

namespace Runs

variable {c : EStateM ε σ α} {f : α → EStateM ε σ β} {mid post : σ → α → Prop}
  {post₂ : σ → β → Prop}

theorem pure {a : α} (h : post s a) : M.Runs s (Pure.pure a : EStateM ε σ α) post :=
  fun holds => ⟨M.refl, holds, h⟩

theorem throw {exit : ε} : M.Runs s (MonadExcept.throw exit : EStateM ε σ α) post :=
  fun holds => ⟨M.refl, holds⟩

theorem get_bind {next : σ → EStateM ε σ β} (h : M.Runs s (next s) post₂) :
    M.Runs s (MonadState.get >>= next) post₂ := h

theorem modifyGet {g : σ → α × σ} (later : M.Later s (g s).2)
    (holds' : M.Holds s → M.Holds (g s).2) (h : post (g s).2 (g s).1) :
    M.Runs s (MonadState.modifyGet g : EStateM ε σ α) post :=
  fun holds => ⟨later, holds' holds, h⟩

theorem bind (first : M.Runs s c mid)
    (then_ : ∀ a s', M.Later s s' → mid s' a → M.Runs s' (f a) post₂) :
    M.Runs s (c >>= f) post₂ := by
  intro holds
  have ended := first holds
  rw [EStateM.run_bind]
  cases ran : c.run s with
  | error exit s₁ =>
      rw [ran] at ended
      exact ended
  | ok a s₁ =>
      rw [ran] at ended
      obtain ⟨later₁, holds₁, h⟩ := ended
      have ended₂ := then_ a s₁ later₁ h holds₁
      dsimp only
      cases ran₂ : (f a).run s₁ with
      | ok b s₂ =>
          rw [ran₂] at ended₂
          exact ⟨M.trans later₁ ended₂.1, ended₂.2⟩
      | error exit s₂ =>
          rw [ran₂] at ended₂
          exact ⟨M.trans later₁ ended₂.1, ended₂.2⟩

/-- A handler takes over where the computation ended. -/
theorem tryCatch {handler : ε → EStateM ε σ α} (h : M.Runs s c post)
    (handled : ∀ exit s', M.Later s s' → M.Runs s' (handler exit) post) :
    M.Runs s (MonadExcept.tryCatch c handler) post := by
  intro holds
  have ended := h holds
  rw [run_tryCatch]
  cases ran : c.run s with
  | ok a s₁ =>
      rw [ran] at ended
      exact ended
  | error exit s₁ =>
      rw [ran] at ended
      obtain ⟨later₁, holds₁⟩ := ended
      have ended₂ := handled exit s₁ later₁ holds₁
      dsimp only
      cases ran₂ : (handler exit).run s₁ with
      | ok b s₂ =>
          rw [ran₂] at ended₂
          exact ⟨M.trans later₁ ended₂.1, ended₂.2⟩
      | error exit s₂ =>
          rw [ran₂] at ended₂
          exact ⟨M.trans later₁ ended₂.1, ended₂.2⟩

/-- However it ends, the run ends in a later state. -/
theorem finalState (h : M.Runs s c post) (holds : M.Holds s) :
    M.Later s (finalState (c.run s)) ∧ M.Holds (MonkeyLang.finalState (c.run s)) := by
  have ended := h holds
  cases ran : c.run s with
  | ok a s₁ =>
      rw [ran] at ended
      exact ⟨ended.1, ended.2.1⟩
  | error exit s₁ =>
      rw [ran] at ended
      exact ended

/-- What holds of the state may be used. -/
theorem of_holds (h : M.Holds s → M.Runs s c post) : M.Runs s c post := fun holds => h holds holds

variable {g : Node → EStateM ε σ Node} {R : σ → Node → Prop}
  (lasting : ∀ s s' n, M.Later s s' → R s n → R s' n)
include lasting

theorem mapM {nodes : List Node}
    (each : ∀ n ∈ nodes, ∀ s', M.Later s s' → M.Runs s' (g n) R) :
    M.Runs s (nodes.mapM g) fun s' ns => ns.length = nodes.length ∧ ∀ n ∈ ns, R s' n := by
  induction nodes generalizing s with
  | nil => exact .pure ⟨rfl, nofun⟩
  | cons n others ih =>
      rw [List.mapM_cons]
      refine (each n (.head _) s M.refl).bind fun n' s₁ later₁ first => ?_
      have rest := ih fun n mem s' later => each n (.tail _ mem) s' (M.trans later₁ later)
      refine rest.bind fun ns s₂ later₂ ⟨length_eq, all⟩ => .pure ⟨congrArg (· + 1) length_eq, ?_⟩
      exact List.forall_mem_cons.2 ⟨lasting _ _ _ later₂ first, all⟩

/-- A tree is transformed within a motion if a node is of whose children something has become. -/
theorem transformM (ok : Node → Prop) (child : ∀ n c, ok n → c ∈ n.children → ok c)
    (missing : ∀ s, R s .missing)
    (node : ∀ n ns s, ok n → ns.length = n.children.length → (∀ c ∈ ns, R s c) →
      M.Runs s (g (n.withChildren ns)) R) {n : Node} (h : ok n) :
    M.Runs s (n.transformM g) R := by
  induction n using Node.childInduction generalizing s with
  | step n ih =>
      rw [Node.transformM_eq]
      have below := mapM lasting fun c mem s' (_ : M.Later s s') => ih c mem (child n c h mem)
      refine below.bind fun ns s' _ ⟨length_eq, all⟩ => ?_
      have here := node n ns s' h length_eq all
      generalize n.withChildren ns = n' at here ⊢
      cases n' with
      | missing => exact .pure (missing s')
      | _ => exact here

end Runs

end Motion

end MonkeyLang
