import MonkeyLang.Proofs.Session.Known

/-!
# Sessions in use

A session is used to evaluate units of source. Besides, trees may be evaluated in scopes that it
knows, and values that it knows may be called. Whatever is done, what was known stays known, and what
comes of it is known as well.

* `Session.Onward` says that one session comes of another by such uses, `Session.InUse` that it comes
  of a new one.
* `Session.Onward.steady` is the invariant of these uses, `Session.Onward.knows` what follows for a
  value.
* `Session.Steady.knows_answer` and `Session.Steady.knows_outcome`: results are known.
-/

namespace MonkeyLang

open Session (values macros machine₀)

namespace Session

/-- The session after a computation on its machine. -/
def after (s : Session) (c : Eval Value) : Session := { s with machine := finalState (c.run s.machine) }

/-- A use of a session: a unit of source, the evaluation of a tree in a known scope, or a call of known
values. -/
inductive Uses : Session → Session → Prop
  | run {s : Session} (source : Text) : Uses s (s.run source).2
  | eval {s : Session} (source : Text) : Uses s (s.eval source).2
  | evaluate {s : Session} (depth : Nat) {n : Node} {e : ScopeId} :
    s.machine.Knows (.scope e) → (∀ id, n.Refers id → id < s.machine.pieces.nextId) →
    Uses s (s.after (evaluate depth n e))
  | call {s : Session} (depth : Nat) {f : Value} {vs : List Value} :
    (∀ v ∈ f :: vs, s.machine.Knows (.value v)) →
    Uses s (s.after (Eval.apply (MonkeyLang.evaluate depth) f vs))

/-- Any number of uses. -/
abbrev Onward : Session → Session → Prop := Relation.ReflTransGen Uses

/-- A session that is in use since it was new. -/
def InUse (s : Session) : Prop := ∃ limit, (start limit).Onward s

theorem Reached.inUse {s : Session} (h : s.Reached) : s.InUse := by
  induction h with
  | start limit => exact ⟨limit, .refl⟩
  | eval source _ ih => exact ih.imp fun _ onward => onward.tail (.eval source)
  | run source _ ih => exact ih.imp fun _ onward => onward.tail (.run source)

theorem InUse.onward {s t : Session} (h : s.InUse) (onward : s.Onward t) : t.InUse :=
  h.imp fun _ before => before.trans onward

end Session

/-! ## Computations -/

namespace Machine

variable {known kept : ScopeId → Prop} {m : Machine}

/-- A computation on a steady machine leaves a steady machine, on which what was there is there still,
and which knows the result. -/
structure EndsSteady (kept : ScopeId → Prop) (m : Machine) (c : Eval Value) : Prop where
  steady : (finalState (c.run m)).Steady kept
  later : m.Later (finalState (c.run m))
  knows : ∀ outcome, (c.outcome m).1 = .ok outcome →
    (finalState (c.run m)).Knows (.value outcome.toValue)

namespace EndsSteady

theorem of_calm {c : Eval Value} {e : ScopeId} (holds : m.Numbered)
    (calm : m.EndsCalm known (c.run m)) (more : ∀ id, kept id → known id)
    (keeps : Eval.Invariant.numbered.Keeps e m c Eval.Invariant.numbered.Value)
    (scopes : m.store.nextId ≤ (finalState (c.run m)).store.nextId) : EndsSteady kept m c := by
  obtain ⟨pieces, known', wider, calm, fits⟩ := calm
  obtain ⟨serials, numbered⟩ := keeps.moves
  have numbered := numbered holds
  have knows {v : Value} (fits : v.Fits (.calm known' (finalState (c.run m)).pieces))
      (given : v.Numbered (finalState (c.run m)).nextSerial) :
      (finalState (c.run m)).Knows (.value v) := calm.knows numbered fits given
  refine ⟨⟨⟨known', fun id isKept => wider id (more id isKept), calm⟩, numbered⟩,
    ⟨scopes, pieces, serials⟩, fun outcome ended => ?_⟩
  unfold Eval.Invariant.Keeps at keeps
  rw [outcome_eq] at ended
  cases ran : c.run m with
  | ok v m' =>
      rw [ran] at ended keeps knows fits
      cases ended
      exact knows (fits v ⟨m', .inl rfl⟩) keeps.2
  | error exit m' =>
      rw [ran] at ended keeps knows fits
      cases exit with
      | failed fault =>
          cases ended
          exact knows (.bare rfl) (.of_given trivial rfl)
      | returned v =>
          cases ended
          exact knows (fits v ⟨m', .inr rfl⟩) keeps.2
      | halted halt => cases ended

end EndsSteady

namespace Steady

theorem evaluate (h : m.Steady kept) (depth : Nat) {n : Node} {e : ScopeId}
    (knows : m.Knows (.scope e)) (code : ∀ id, n.Refers id → id < m.pieces.nextId) :
    m.EndsSteady kept (MonkeyLang.evaluate depth n e) := by
  obtain ⟨known, more, calm⟩ := h.calm
  have calm := calm.join (· = .scope e) fun p same => same ▸ knows
  have numbered := Eval.Invariant.numbered.evaluate depth n e m ⟨h.numbered, trivial⟩
  exact .of_calm h.numbered (calm.evaluate depth (.inr ⟨_, rfl, .refl⟩) code)
    (fun id isKept => .inl (more id isKept)) numbered (evaluate_grows depth n e m).nextId_le

theorem call (h : m.Steady kept) (depth : Nat) {f : Value} {vs : List Value}
    (knows : ∀ v ∈ f :: vs, m.Knows (.value v)) :
    m.EndsSteady kept (Eval.apply (MonkeyLang.evaluate depth) f vs) := by
  obtain ⟨known, more, calm⟩ := h.calm
  have calm := calm.join (Place.Among (f :: vs)) fun p ⟨v, mem, same⟩ => same ▸ knows v mem
  have fits (v : Value) (mem : v ∈ f :: vs) :
      v.Fits (.calm (fun id => known id ∨ m.store.ScopeFrom (Place.Among (f :: vs)) id) m.pieces) :=
    (knows v mem).fits fun id steps => .inr ⟨_, ⟨v, mem, rfl⟩, steps⟩
  have numbered (v : Value) (mem : v ∈ f :: vs) : v.Numbered m.nextSerial := (knows v mem).numbered
  have keeps := Eval.Invariant.Keeps.apply (I := .numbered) (e := values)
    (fun n e m at_ => Eval.Invariant.numbered.evaluate depth n e m at_) ⟨h.numbered, trivial⟩
    (numbered f (.head _)) fun v mem => numbered v (.tail _ mem)
  exact .of_calm h.numbered (calm.apply depth fits) (fun id isKept => .inl (more id isKept)) keeps
    (apply_extends depth f vs m).nextId_le

end Steady

end Machine

/-! ## Units -/

namespace Session

variable {kept : ScopeId → Prop} {s t : Session}

theorem steady_start (limit : Int) : (start limit).machine.Steady (fun _ => False) :=
  ⟨⟨_, nofun, keepsCalm_machine₀⟩, numbered_machine₀⟩

theorem run_steady (steady : s.machine.Steady kept) (source : Text) :
    (s.run source).2.machine.Steady kept ∧ s.machine.Later (s.run source).2.machine := by
  obtain ⟨pieces, calm⟩ := (answer_keepsCalm kept s.limit source s.machine).finalState steady.calm
  obtain ⟨serials, numbered⟩ := (answer_numbered s.limit source s.machine).finalState steady.numbered
  have grown := grows s.machine.store s.limit source s.machine .refl
  rw [run_machine]
  exact ⟨⟨calm, numbered⟩, grown.nextId_le, pieces, serials⟩

/-- What a unit comes to is known. -/
theorem run_knows (steady : s.machine.Steady kept) {source : Text} {answer : Answer}
    (answered : (s.run source).1 = .ok answer) :
    (s.run source).2.machine.Knows (.value answer.outcome.toValue) := by
  have calm := answer_keepsCalm kept s.limit source s.machine steady.calm
  have numbered := answer_numbered s.limit source s.machine steady.numbered
  unfold Session.run perform at answered ⊢
  cases ran : (Session.answer s.limit source).run s.machine with
  | ok a m' =>
      rw [ran] at calm numbered answered
      cases answered
      obtain ⟨known, -, calm, fits⟩ := calm.2.2
      exact calm.knows numbered.2.1 fits numbered.2.2
  | error refusal m' =>
      rw [ran] at answered
      cases answered

theorem remark_steady (steady : s.machine.Steady kept) (r : Remark) :
    (s.remark r).machine.Steady kept :=
  have ⟨known, more, calm⟩ := steady.calm
  ⟨⟨known, more, calm.of_same rfl rfl⟩, steady.numbered.of_store rfl (Nat.le_refl _)⟩

theorem eval_knows (steady : s.machine.Steady kept) {source : Text} {outcome : Outcome}
    (ended : (s.eval source).1 = .ok outcome) :
    (s.eval source).2.machine.Knows (.value outcome.toValue) := by
  have answer_eq : (s.eval source).1 =
      ((s.remark (.evaluating source.length)).run source).1.map Answer.outcome := rfl
  rw [answer_eq] at ended
  cases ran : ((s.remark (.evaluating source.length)).run source).1 with
  | ok answer =>
      rw [ran] at ended
      cases ended
      exact run_knows (remark_steady steady _) ran
  | error refusal =>
      rw [ran] at ended
      cases ended

/-! ## Uses -/

theorem Uses.steady (h : s.Uses t) (steady : s.machine.Steady kept) :
    t.machine.Steady kept ∧ s.machine.Later t.machine := by
  cases h with
  | run source => exact run_steady steady source
  | eval source =>
      have remarked := remark_steady steady (.evaluating source.length)
      have ⟨steady', scopes, pieces, serials⟩ := run_steady remarked source
      exact ⟨steady', scopes, pieces, serials⟩
  | evaluate depth knows code =>
      have ends := steady.evaluate depth knows code
      exact ⟨ends.steady, ends.later⟩
  | call depth knows =>
      have ends := steady.call depth knows
      exact ⟨ends.steady, ends.later⟩

theorem Onward.steady (h : s.Onward t) (steady : s.machine.Steady kept) :
    t.machine.Steady kept ∧ s.machine.Later t.machine := by
  induction h with
  | refl => exact ⟨steady, .refl⟩
  | tail _ step ih =>
      have next := step.steady ih.1
      exact ⟨next.1, ih.2.trans next.2⟩

theorem InUse.steady (h : s.InUse) : s.machine.Steady fun _ => False :=
  have ⟨limit, onward⟩ := h
  (onward.steady (steady_start limit)).1

/-- What is known stays known. -/
theorem Onward.knows (h : s.Onward t) (steady : s.machine.Steady kept) {p : Place}
    (knows : s.machine.Knows p) : t.machine.Knows p := by
  have joined := steady.join (· = p) fun q same => same ▸ knows
  have ⟨steady', later⟩ := h.steady joined
  exact steady'.knows later knows fun id steps => .inr ⟨p, rfl, steps⟩

end Session

end MonkeyLang
