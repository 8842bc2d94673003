import MonkeyLang.Proofs.Machine.Proper
import MonkeyLang.Proofs.Machine.Runs

/-!
# Two runs side by side

Two computations run on machines that are the same but for what has been put out. They are alike
if they end in the same way, on such machines again, and if the machines are then proper.

* `Comparison.Alike` is this relation. A `Comparison` says how the outputs compare and which exits
  there may be.
* `Comparison.Alike.bind` and `Comparison.Alike.tryCatch` are the rules for sequences and handlers,
  and `Comparison.tracks` says that transformations of proper trees are alike if their steps are.
-/

namespace MonkeyLang

/-- What is asked of two runs side by side. -/
structure Comparison (ε : Type) where
  /-- How the outputs compare. -/
  Events : Array Event → Array Event → Prop
  emit : ∀ {a b : Array Event} (event : Event), Events a b → Events (a.push event) (b.push event)
  /-- Which exits there may be. -/
  Exits : Roles → ε → Prop

namespace Comparison

variable {ε α β : Type} {J : Comparison ε} {roles roles' : Roles}

/-- The machines are the same but for what has been put out. -/
def Beside (J : Comparison ε) (m m' : Machine) : Prop :=
  ∃ events, J.Events m.events events ∧ m' = { m with events := events }

/-- The runs end in the same way. -/
inductive Ends (J : Comparison ε) (roles : Roles) (post : Roles → α → Prop) :
    EStateM.Result ε Machine α → EStateM.Result ε Machine α → Prop
  | ok {roles' : Roles} {a : α} {m m' : Machine} : roles.Le roles' →
    m.Proper roles' → J.Beside m m' → post roles' a →
    Ends J roles post (.ok a m) (.ok a m')
  | error {roles' : Roles} {exit : ε} {m m' : Machine} : roles.Le roles' →
    m.Proper roles' → J.Beside m m' → J.Exits roles' exit →
    Ends J roles post (.error exit m) (.error exit m')

theorem Ends.of_le {post : Roles → α → Prop} {r r' : EStateM.Result ε Machine α}
    (more : roles.Le roles') (h : J.Ends roles' post r r') : J.Ends roles post r r' := by
  cases h with
  | ok more' proper beside holds => exact .ok (more.trans more') proper beside holds
  | error more' proper beside exits => exact .error (more.trans more') proper beside exits

/-- Where the pieces have the roles and the machines are side by side, the runs end in the same
way. -/
def Alike (J : Comparison ε) (roles : Roles) (c c' : EStateM ε Machine α)
    (post : Roles → α → Prop) : Prop :=
  ∀ m m', m.Proper roles → J.Beside m m' → J.Ends roles post (c.run m) (c'.run m')

namespace Alike

variable {c c' : EStateM ε Machine α} {post : Roles → α → Prop}

theorem pure {a : α} (h : post roles a) :
    J.Alike roles (Pure.pure a) (Pure.pure a) post :=
  fun _ _ proper beside => .ok .refl proper beside h

theorem throw {exit : ε} (h : J.Exits roles exit) :
    J.Alike roles (MonadExcept.throw exit) (MonadExcept.throw exit) post :=
  fun _ _ proper beside => .error .refl proper beside h

theorem bind {next next' : α → EStateM ε Machine β} {mid : Roles → α → Prop}
    {post : Roles → β → Prop} (first : J.Alike roles c c' mid)
    (then_ : ∀ roles' a, roles.Le roles' → mid roles' a →
      J.Alike roles' (next a) (next' a) post) :
    J.Alike roles (c >>= next) (c' >>= next') post := by
  intro m m' proper beside
  have ended := first m m' proper beside
  rw [EStateM.run_bind, EStateM.run_bind]
  generalize c.run m = r, c'.run m' = r' at ended ⊢
  cases ended with
  | ok more proper₁ beside₁ holds =>
      exact (then_ _ _ more holds _ _ proper₁ beside₁).of_le more
  | error more proper₁ beside₁ exits => exact .error more proper₁ beside₁ exits

theorem mono {post' : Roles → α → Prop} (h : J.Alike roles c c' post)
    (weaker : ∀ roles' a, roles.Le roles' → post roles' a → post' roles' a) :
    J.Alike roles c c' post' := by
  intro m m' proper beside
  have ended := h m m' proper beside
  generalize c.run m = r, c'.run m' = r' at ended ⊢
  cases ended with
  | ok more proper₁ beside₁ holds => exact .ok more proper₁ beside₁ (weaker _ _ more holds)
  | error more proper₁ beside₁ exits => exact .error more proper₁ beside₁ exits

/-- Two handlers take over where the runs have ended. -/
theorem tryCatch {handler handler' : ε → EStateM ε Machine α} (h : J.Alike roles c c' post)
    (handled : ∀ roles' exit, roles.Le roles' → J.Exits roles' exit →
      J.Alike roles' (handler exit) (handler' exit) post) :
    J.Alike roles (MonadExcept.tryCatch c handler) (MonadExcept.tryCatch c' handler') post := by
  intro m m' proper beside
  have ended := h m m' proper beside
  rw [run_tryCatch, run_tryCatch]
  generalize c.run m = r, c'.run m' = r' at ended ⊢
  cases ended with
  | ok more proper₁ beside₁ holds => exact .ok more proper₁ beside₁ holds
  | error more proper₁ beside₁ exits =>
      exact (handled _ _ more exits _ _ proper₁ beside₁).of_le more

/-- What is read from two machines side by side is the same, if it is not the output. -/
theorem get_bind {next next' : Machine → EStateM ε Machine α}
    (blind : ∀ m events, next' { m with events := events } = next' m)
    (then_ : ∀ m, m.Proper roles → J.Alike roles (next m) (next' m) post) :
    J.Alike roles (get >>= next) (get >>= next') post := by
  rintro m _ proper ⟨events, compared, rfl⟩
  have ended := then_ m proper m _ proper ⟨events, compared, rfl⟩
  rw [← blind m events] at ended
  exact ended

theorem modifyGet {f : Machine → α × Machine}
    (step : ∀ m, m.Proper roles → ∃ roles', roles.Le roles' ∧
      (f m).2.Proper roles' ∧ post roles' (f m).1)
    (same : ∀ m m', J.Beside m m' → (f m').1 = (f m).1 ∧ J.Beside (f m).2 (f m').2) :
    J.Alike roles (MonadState.modifyGet f) (MonadState.modifyGet f) post := by
  intro m m' proper beside
  obtain ⟨roles', more, proper', holds⟩ := step m proper
  obtain ⟨result, beside'⟩ := same m m' beside
  have run_eq (m : Machine) :
      (MonadState.modifyGet f : EStateM ε Machine α).run m = .ok (f m).1 (f m).2 := rfl
  rw [run_eq, run_eq, result]
  exact .ok more proper' beside' holds

/-- A step that neither reads nor makes any output. -/
theorem silent {f : Machine → α × Machine}
    (blind : ∀ m events, f { m with events := events } = ((f m).1, { (f m).2 with events := events }))
    (quiet : ∀ m, (f m).2.events = m.events)
    (step : ∀ m, m.Proper roles → ∃ roles', roles.Le roles' ∧ (f m).2.Proper roles' ∧
      post roles' (f m).1) :
    J.Alike roles (MonadState.modifyGet f) (MonadState.modifyGet f) post := by
  refine .modifyGet step ?_
  rintro m _ ⟨events, compared, rfl⟩
  rw [blind]
  exact ⟨rfl, events, by rwa [quiet], rfl⟩

end Alike

theorem tracks (J : Comparison ε) :
    Tracks fun α roles (c c' : EStateM ε Machine α) post => J.Alike roles c c' post where
  pure h := .pure h
  bind first then_ := .bind first then_

end Comparison

end MonkeyLang
