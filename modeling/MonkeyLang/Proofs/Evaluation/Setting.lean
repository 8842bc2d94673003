import Mathlib.Order.Filter.AtTopBot.Basic
import MonkeyLang.Proofs.Value.Fits
import MonkeyLang.Proofs.Value.Ordinary

/-!
# Settings of evaluation

A setting says of a machine which scopes an evaluation may go on in, and of trees which of them may
stand in a quotation, in a function, or in a macro. The values that may occur are those that hold
none but such trees. It is a matter of the pieces of program what a tree may be, and they may move
only so that no tree is lost.

How deep evaluations may stand inside each other is left open. A family of computations, one for
each depth, settles if from some depth on, or at a certain depth, they all come to the same.

* `Eval.Setting.Runs` says of a family of computations on one machine that it settles, that the
  machine stays sound, and that the result, or the value on its way out, may occur.
* `Eval.Setting.Runs.bind` is the rule for sequences, `Eval.Setting.Runs.tryCatch` that for handlers.
-/

namespace MonkeyLang

/-! ## What settles -/

/-- The results come to one and the same, for which `P` holds. -/
def Settles {ρ : Type} (F : Filter Nat) (r : Nat → ρ) (P : ρ → Prop) : Prop :=
  ∃ b, P b ∧ ∀ᶠ i in F, r i = b

namespace Settles

variable {ρ : Type} {F : Filter Nat} {r r' : Nat → ρ} {P Q : ρ → Prop}

theorem const {b : ρ} (h : P b) : Settles F (fun _ => b) P := ⟨b, h, .of_forall fun _ => rfl⟩

theorem mono (h : Settles F r P) (weaker : ∀ b, P b → Q b) : Settles F r Q := by
  obtain ⟨b, holds, same⟩ := h
  exact ⟨b, weaker b holds, same⟩

theorem congr (h : Settles F r P) (same : ∀ᶠ i in F, r' i = r i) : Settles F r' P := by
  obtain ⟨b, holds, eq⟩ := h
  exact ⟨b, holds, (same.and eq).mono fun _ both => both.1.trans both.2⟩

/-- At a single depth nothing is left to settle. -/
theorem pure_iff {depth : Nat} : Settles (pure depth) r P ↔ P (r depth) := by
  simp only [Settles, Filter.eventually_pure, exists_eq_right']

theorem map_iff {f : Nat → Nat} :
    Settles (F.map f) r P ↔ Settles F (fun i => r (f i)) P := by
  simp only [Settles, Filter.eventually_map]

end Settles

/-! ## Settings -/

/-- The scopes and trees that an evaluation may come to, and how the pieces may move. -/
structure Eval.Setting where
  /-- The scopes that are known from the start; besides them the later ones are allowed. -/
  known : ScopeId → Prop
  start : Nat
  /-- Nothing overflows. -/
  total : Prop
  pieces : Pieces → Prop
  moves : Pieces → Pieces → Prop
  quoted : Pieces → Node → Prop
  parameter : Pieces → Node → Prop
  code : Pieces → Node → Prop
  held : Pieces → Node → Prop
  refl : ∀ {p}, moves p p
  trans : ∀ {p₁ p₂ p₃}, moves p₁ p₂ → moves p₂ p₃ → moves p₁ p₃
  quoted_moves : ∀ {p p' n}, moves p p' → quoted p n → quoted p' n
  parameter_moves : ∀ {p p' n}, moves p p' → parameter p n → parameter p' n
  code_moves : ∀ {p p' n}, moves p p' → code p n → code p' n
  held_moves : ∀ {p p' n}, moves p p' → held p n → held p' n
  /-- Where nothing overflows there are no functions, and all trees have a text. -/
  code_total : ∀ {p n}, total → ¬ code p n
  quoted_text : ∀ {p n}, total → quoted p n → ∃ text, p.text? n = some text
  held_text : ∀ {p n}, total → pieces p → held p n → ∃ text, p.text? n = some text

namespace Eval.Setting

variable {S : Eval.Setting} {m m' m₁ m₂ m₃ : Machine}

/-- What values may hold. -/
def limits (S : Eval.Setting) (m : Machine) : Value.Limits where
  scope := Allowed S.known S.start m.store.nextId
  quoted := S.quoted m.pieces
  parameter := S.parameter m.pieces
  code := S.code m.pieces
  held := S.held m.pieces

/-- An evaluation may go on in the scope. -/
def Scope (S : Eval.Setting) (m : Machine) (id : ScopeId) : Prop := (S.limits m).scope id

/-- The value may occur. -/
def Value (S : Eval.Setting) (m : Machine) (v : MonkeyLang.Value) : Prop := v.Fits (S.limits m)

/-- The pieces are as the setting wants them, and so are the values in allowed scopes. -/
structure Sound (S : Eval.Setting) (m : Machine) : Prop where
  start_le : S.start ≤ m.store.nextId
  pieces : S.pieces m.pieces
  store : m.store.Fits (S.limits m)

/-- How the machine may move. -/
structure Later (S : Eval.Setting) (m m' : Machine) : Prop where
  nextId_le : m.store.nextId ≤ m'.store.nextId
  moves : S.moves m.pieces m'.pieces

theorem Later.refl : S.Later m m := ⟨Nat.le_refl _, S.refl⟩

theorem Later.trans (h₁ : S.Later m₁ m₂) (h₂ : S.Later m₂ m₃) : S.Later m₁ m₃ :=
  ⟨Nat.le_trans h₁.nextId_le h₂.nextId_le, S.trans h₁.moves h₂.moves⟩

theorem Later.limits (h : S.Later m m') : (S.limits m).Le (S.limits m') where
  scope _ allowed := allowed.mono h.nextId_le
  quoted _ := S.quoted_moves h.moves
  parameter _ := S.parameter_moves h.moves
  code _ := S.code_moves h.moves
  held _ := S.held_moves h.moves

theorem Later.scope (h : S.Later m m') {id : ScopeId} (allowed : S.Scope m id) : S.Scope m' id :=
  h.limits.scope id allowed

theorem Later.value (h : S.Later m m') {v : MonkeyLang.Value} (fits : S.Value m v) :
    S.Value m' v :=
  fits.mono h.limits

/-- What is neither a scope nor a piece does not matter. -/
theorem Later.of_same (store : m'.store = m.store) (pieces : m'.pieces = m.pieces) :
    S.Later m m' := by
  constructor
  · rw [store]
  · rw [pieces]
    exact S.refl

theorem Sound.of_same (h : S.Sound m) (store : m'.store = m.store)
    (pieces : m'.pieces = m.pieces) : S.Sound m' := by
  have same : S.limits m' = S.limits m := by rw [limits, limits, store, pieces]
  refine ⟨?_, ?_, ?_⟩
  · rw [store]
    exact h.start_le
  · rw [pieces]
    exact h.pieces
  · rw [same, store]
    exact h.store

/-- The pieces move and are as the setting wants them. -/
theorem Sound.of_moves (h : S.Sound m) {p : Pieces} (moves : S.moves m.pieces p)
    (holds : S.pieces p) : S.Sound { m with pieces := p } := by
  have later : S.Later m { m with pieces := p } := ⟨Nat.le_refl _, moves⟩
  refine ⟨h.start_le, holds, fun allowed bound => ?_, fun allowed outer => ?_⟩
  · exact (h.store.binding allowed bound).mono later.limits
  · exact h.store.outer allowed outer

theorem Sound.bind (h : S.Sound m) (id : ScopeId) (name : Text) {v : MonkeyLang.Value}
    (fits : S.Value m v) : S.Later m (m.bind id name v) ∧ S.Sound (m.bind id name v) := by
  have nextId_eq : (m.bind id name v).store.nextId = m.store.nextId := Store.nextId_bind ..
  have same : S.limits (m.bind id name v) = S.limits m := by
    rw [limits, limits, nextId_eq]
    rfl
  refine ⟨⟨Nat.le_of_eq nextId_eq.symm, S.refl⟩, ?_, h.pieces, ?_⟩
  · rw [nextId_eq]
    exact h.start_le
  rw [same]
  constructor
  · intro other name' w allowed bound
    rw [Machine.bind, Store.scope_bind] at bound
    split at bound
    · next found =>
        rcases Assoc.mem_insert bound with old | new
        · exact h.store.binding (found.1 ▸ allowed) old
        · cases new
          exact fits
    · exact h.store.binding allowed bound
  · intro other around allowed outer
    rw [Machine.bind, Store.scope_bind] at outer
    split at outer
    · next found => exact h.store.outer (found.1 ▸ allowed) outer
    · exact h.store.outer allowed outer

theorem Sound.enter (h : S.Sound m) {outer : ScopeId} {bindings : Assoc Text MonkeyLang.Value}
    (allowed : S.Scope m outer) (fits : ∀ b ∈ bindings, S.Value m b.2) :
    S.Later m (m.enter (some outer) bindings) ∧ S.Sound (m.enter (some outer) bindings) ∧
      S.Scope (m.enter (some outer) bindings) m.store.nextId := by
  have nextId_eq : (m.enter (some outer) bindings).store.nextId = m.store.nextId + 1 :=
    Store.nextId_enter ..
  have later : S.Later m (m.enter (some outer) bindings) :=
    ⟨by rw [nextId_eq]; exact Nat.le_succ _, S.refl⟩
  have of_old {id : ScopeId} (allowed : (S.limits (m.enter (some outer) bindings)).scope id)
      (old : id ≠ m.store.nextId) : (S.limits m).scope id := by
    simp only [limits, nextId_eq] at allowed
    exact allowed.of_ne_next old
  refine ⟨later, ⟨Nat.le_trans h.start_le later.nextId_le, h.pieces, ?_, ?_⟩, ?_⟩
  · intro id name v allowed' bound
    rw [Machine.enter, Store.scope_enter] at bound
    split at bound
    · exact (fits _ bound).mono later.limits
    · next old => exact (h.store.binding (of_old allowed' old) bound).mono later.limits
  · intro id around allowed' found
    rw [Machine.enter, Store.scope_enter] at found
    split at found
    · cases found
      exact later.scope allowed
    · next old => exact later.scope (h.store.outer (of_old allowed' old) found)
  · simp only [Scope, limits, nextId_eq]
    exact Allowed.next h.start_le

/-! ## Runs -/

/-- What holds when a computation ends by an exit. -/
def AtExit (S : Eval.Setting) (m : Machine) : Exit → Prop
  | .returned v => S.Value m v
  | .failed _ => True
  | .halted halt => S.total → halt ≠ .overflow

/-- The computation ends with a result for which `post` holds, or by an exit, on a machine that is
sound. -/
def Ended (S : Eval.Setting) (m : Machine) {α : Type} (post : Machine → α → Prop) :
    EStateM.Result Exit Machine α → Prop
  | .ok a m' => S.Later m m' ∧ S.Sound m' ∧ post m' a
  | .error exit m' => S.Later m m' ∧ S.Sound m' ∧ S.AtExit m' exit

/-- On a sound machine the family of computations settles. -/
def Runs (S : Eval.Setting) (F : Filter Nat) (m : Machine) {α : Type} (c : Nat → Eval α)
    (post : Machine → α → Prop) : Prop :=
  S.Sound m → Settles F (fun i => (c i).run m) (S.Ended m post)

namespace Runs

variable {F : Filter Nat} {α β : Type} {c c' : Nat → Eval α} {f : Nat → α → Eval β}
  {mid post post' : Machine → α → Prop} {post₂ : Machine → β → Prop}

theorem pure {a : α} (h : post m a) : S.Runs F m (fun _ => Pure.pure a) post :=
  fun sound => .const ⟨.refl, sound, h⟩

theorem throw {exit : Exit} (h : S.AtExit m exit) :
    S.Runs F m (fun _ => MonadExcept.throw exit) post :=
  fun sound => .const ⟨.refl, sound, h⟩

theorem fail {fault : Fault} : S.Runs F m (fun _ => Eval.fail fault) post := throw trivial

theorem bind (first : S.Runs F m c mid)
    (then_ : ∀ a m', S.Later m m' → S.Sound m' → mid m' a →
      S.Runs F m' (fun i => f i a) post₂) :
    S.Runs F m (fun i => c i >>= f i) post₂ := by
  intro sound
  obtain ⟨b, ended, same⟩ := first sound
  cases b with
  | error exit m₁ =>
      exact ⟨.error exit m₁, ended, same.mono fun i ran => run_bind_of_exit ran⟩
  | ok a m₁ =>
      obtain ⟨later, sound₁, holds⟩ := ended
      obtain ⟨b, ended₂, same₂⟩ := then_ a m₁ later sound₁ holds sound₁
      refine ⟨b, ?_, (same.and same₂).mono fun i ran => (run_bind_of_ok ran.1).trans ran.2⟩
      cases b with
      | ok b m₂ => exact ⟨later.trans ended₂.1, ended₂.2⟩
      | error exit m₂ => exact ⟨later.trans ended₂.1, ended₂.2⟩

theorem mono (h : S.Runs F m c post)
    (weaker : ∀ a m', S.Later m m' → S.Sound m' → post m' a → post' m' a) :
    S.Runs F m c post' := by
  intro sound
  refine (h sound).mono fun b ended => ?_
  cases b with
  | ok a m' => exact ⟨ended.1, ended.2.1, weaker a m' ended.1 ended.2.1 ended.2.2⟩
  | error exit m' => exact ended

/-- A handler takes over where the computation ended. -/
theorem tryCatch {handler : Exit → Eval α} (h : S.Runs F m c post)
    (handled : ∀ exit m', S.Later m m' → S.Sound m' → S.AtExit m' exit →
      S.Runs F m' (fun _ => handler exit) post) :
    S.Runs F m (fun i => MonadExcept.tryCatch (c i) handler) post := by
  intro sound
  obtain ⟨b, ended, same⟩ := h sound
  cases b with
  | ok a m₁ =>
      refine ⟨.ok a m₁, ended, same.mono fun i ran => (run_tryCatch (c i) handler m).trans ?_⟩
      rw [show (c i).run m = .ok a m₁ from ran]
  | error exit m₁ =>
      obtain ⟨later, sound₁, holds⟩ := ended
      obtain ⟨b, ended₂, same₂⟩ := handled exit m₁ later sound₁ holds sound₁
      refine ⟨b, ?_, (same.and same₂).mono fun i ran => (run_tryCatch (c i) handler m).trans ?_⟩
      · cases b with
        | ok b m₂ => exact ⟨later.trans ended₂.1, ended₂.2⟩
        | error exit m₂ => exact ⟨later.trans ended₂.1, ended₂.2⟩
      · rw [show (c i).run m = .error exit m₁ from ran.1]
        exact ran.2

theorem get {post : Machine → Machine → Prop} (h : post m m) :
    S.Runs F m (fun _ => (MonadState.get : Eval Machine)) post :=
  fun sound => .const ⟨.refl, sound, h⟩

theorem modifyGet {f : Machine → α × Machine} (later : S.Later m (f m).2)
    (sound' : S.Sound m → S.Sound (f m).2) (h : post (f m).2 (f m).1) :
    S.Runs F m (fun _ => (MonadState.modifyGet f : Eval α)) post :=
  fun sound => .const ⟨later, sound' sound, h⟩

/-- Only the runs on this machine count, and only those that settle. -/
theorem congr (h : S.Runs F m c post) (same : ∀ᶠ i in F, (c' i).run m = (c i).run m) :
    S.Runs F m c' post :=
  fun sound => (h sound).congr same

/-- At a depth above another one there is room for one evaluation more. -/
theorem succ (h : S.Runs F m (fun i => c (i + 1)) post) : S.Runs (F.map (· + 1)) m c post :=
  fun sound => Settles.map_iff.2 (h sound)

theorem succ_pure {depth : Nat} (h : S.Runs (Pure.pure depth) m (fun i => c (i + 1)) post) :
    S.Runs (Pure.pure (depth + 1)) m c post :=
  fun sound => Settles.pure_iff.2 (Settles.pure_iff.1 (h sound))

/-- What runs in a setting runs in another one in which more moves are allowed. -/
theorem lift {T : Eval.Setting} (limits : ∀ m, S.limits m = T.limits m)
    (start : S.start = T.start) (total : T.total → S.total)
    (pieces : ∀ p, T.pieces p → S.pieces p)
    (step : ∀ p p', T.pieces p → S.moves p p' → S.pieces p' → T.moves p p' ∧ T.pieces p')
    (h : S.Runs F m c post) : T.Runs F m c post := by
  intro sound
  have sound' : S.Sound m := by
    refine ⟨start ▸ sound.start_le, pieces _ sound.pieces, ?_⟩
    rw [limits]
    exact sound.store
  have back {m' : Machine} (later : S.Later m m') (sound' : S.Sound m') :
      T.Later m m' ∧ T.Sound m' := by
    obtain ⟨moves, holds⟩ := step _ _ sound.pieces later.moves sound'.pieces
    refine ⟨⟨later.nextId_le, moves⟩, start ▸ sound'.start_le, holds, ?_⟩
    rw [← limits]
    exact sound'.store
  refine (h sound').mono fun b ended => ?_
  cases b with
  | ok a m' =>
      obtain ⟨later, sound', holds⟩ := ended
      exact ⟨(back later sound').1, (back later sound').2, holds⟩
  | error exit m' =>
      obtain ⟨later, sound', holds⟩ := ended
      refine ⟨(back later sound').1, (back later sound').2, ?_⟩
      cases exit with
      | failed fault => exact trivial
      | returned v =>
          unfold AtExit Setting.Value at holds ⊢
          rw [← limits]
          exact holds
      | halted halt => exact fun isTotal => holds (total isTotal)

/-- The machine is known to be sound. -/
theorem of_sound (h : S.Sound m → S.Runs F m c post) : S.Runs F m c post :=
  fun sound => h sound sound

end Runs

end Eval.Setting

end MonkeyLang
