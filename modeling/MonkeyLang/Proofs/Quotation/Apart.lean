import MonkeyLang.Proofs.Quotation.Enclosed
import MonkeyLang.Proofs.Quotation.Unfolding

/-!
# The copy that a quotation rewrites

A quotation rewrites a copy of its tree. The quotations that an evaluation meanwhile comes to do not
refer to the copy, and an evaluation changes no piece but those that quotations refer to. So the copy
is changed by the rewriting only.

* `Rewriting.Ready` says of a machine that the copy is apart from all quotations.
* `Rewriting.Ready.evaluate` says that it is so after every evaluation, with the copy unchanged.
-/

namespace MonkeyLang

theorem Pieces.lt_nextId_of_refers {p : Pieces} {id other : PieceId} (h : (p.get id).Refers other) :
    id < p.nextId := by
  refine Nat.lt_of_not_le fun outside => ?_
  have none : p.get id = .missing := by
    rw [Pieces.get, Array.getD_eq_getD_getElem?, Array.getElem?_eq_none outside]
    rfl
  rw [none] at h
  exact Node.not_refers_of_not_isCompound rfl rfl other h

/-- A copy of a tree that is being rewritten. -/
structure Rewriting where
  known : ScopeId → Prop
  /-- How many scopes there were at first. -/
  start : Nat
  /-- The pieces that there were at first, with the copy. -/
  first : Pieces
  /-- The pieces of the copy. -/
  own : PieceId → Prop
  /-- Those in which there is no call of `unquote`. -/
  still : PieceId → Prop
  /-- The pieces that no quotation refers to. -/
  kept : PieceId → Prop
  still_own : ∀ id, still id → own id
  own_kept : ∀ id, own id → kept id
  kept_inside : ∀ id, kept id → id < first.nextId

namespace Rewriting

variable {W : Rewriting} {m m' : Machine} {e : ScopeId} {n : Node} {id : PieceId}

/-- What may be bound in known scopes. -/
def limits (W : Rewriting) (m : Machine) : Value.Limits where
  scope := Allowed W.known W.start m.store.nextId
  quoted n := ∀ id, n.Refers id → id < m.pieces.nextId ∧ ¬ W.kept id
  parameter _ := True
  code n := ∀ id, n.Refers id → id < m.pieces.nextId
  held _ := True

/-- The pieces that are kept are referred to by no quotation, and by none but kept pieces. They are
as they were at first, except for those that are rewritten. -/
structure Ready (W : Rewriting) (m : Machine) : Prop where
  start_le : W.start ≤ m.store.nextId
  nextId_le : W.first.nextId ≤ m.pieces.nextId
  still : ∀ id, W.still id → m.pieces.get id = W.first.get id
  same : ∀ id, W.kept id → ¬ W.own id → m.pieces.get id = W.first.get id
  solid : m.pieces.Solid
  apart : ∀ id, ¬ W.kept id → ∀ other, (m.pieces.get id).Refers other → ¬ W.kept other
  fits : m.store.Fits (W.limits m)

/-- How the machine may move: no kept piece is changed. -/
structure Later (W : Rewriting) (m m' : Machine) : Prop where
  nextId_le : m.pieces.nextId ≤ m'.pieces.nextId
  kept : ∀ id, W.kept id → m'.pieces.get id = m.pieces.get id

namespace Ready

/-- The quotations that there are form an enclosure. -/
def enclosure (W : Rewriting) (m : Machine) : Enclosure where
  known := W.known
  start := W.start
  first := m.pieces
  given id := ¬ W.kept id

theorem limits_le (h : W.Ready m) (m' : Machine) :
    (W.limits m').Le ((enclosure W m).setting.limits m') ∧
      ((enclosure W m).setting.limits m').Le (W.limits m') := by
  refine ⟨⟨fun _ h => h, fun n quoted id refers => ?_, fun _ h => h, fun _ h => h, fun _ h => h⟩,
    ⟨fun _ h => h, fun n quoted id refers => ?_, fun _ h => h, fun _ h => h, fun _ h => h⟩⟩
  · obtain ⟨inside, notKept⟩ := quoted id refers
    exact ⟨inside, fun _ => notKept⟩
  · obtain ⟨inside, given⟩ := quoted id refers
    refine ⟨inside, fun isKept => given ?_ isKept⟩
    exact Nat.lt_of_lt_of_le (W.kept_inside id isKept) h.nextId_le

theorem sound (h : W.Ready m) : (enclosure W m).setting.Sound m where
  start_le := h.start_le
  pieces := .start h.solid h.apart
  store := h.fits.mono (fun _ allowed => allowed) (h.limits_le m).1

/-- An evaluation leaves the kept pieces alone. -/
theorem of_sound (h : W.Ready m) (later : (enclosure W m).setting.Later m m')
    (sound : (enclosure W m).setting.Sound m') : W.Ready m' ∧ W.Later m m' := by
  have holds : (enclosure W m).Holds m'.pieces := sound.pieces
  have inside (id : PieceId) (isKept : W.kept id) : id < m.pieces.nextId :=
    Nat.lt_of_lt_of_le (W.kept_inside id isKept) h.nextId_le
  have kept (id : PieceId) (isKept : W.kept id) : m'.pieces.get id = m.pieces.get id :=
    holds.same id (inside id isKept) (not_not_intro isKept)
  refine ⟨⟨sound.start_le, Nat.le_trans h.nextId_le later.moves, fun id isStill => ?_,
    fun id isKept notOwn => ?_, holds.solid, fun id notKept other refers isKept => ?_,
    sound.store.mono (fun _ allowed => allowed) (h.limits_le m').2⟩, later.moves, kept⟩
  · exact (kept id (W.own_kept id (W.still_own id isStill))).trans (h.still id isStill)
  · exact (kept id isKept).trans (h.same id isKept notOwn)
  · have within : (enclosure W m).Within m'.pieces id :=
      ⟨Pieces.lt_nextId_of_refers refers, fun _ => notKept⟩
    exact (holds.closed id within other refers).2 (inside other isKept) isKept

/-- An evaluation leaves the kept pieces alone, and its value does not refer to them. -/
theorem evaluate (h : W.Ready m) (known : W.known e) (code : ∀ id, n.Refers id → id < m.pieces.nextId)
    (depth : Nat) :
    match (MonkeyLang.evaluate depth n e).run m with
    | .ok v m' => (W.Ready m' ∧ W.Later m m') ∧ v.Fits (W.limits m')
    | .error _ m' => W.Ready m' ∧ W.Later m m' := by
  have ended := Settles.pure_iff.1 ((enclosure W m).evaluate depth (.inl known) code h.sound)
  cases ran : (MonkeyLang.evaluate depth n e).run m with
  | ok v m' =>
      rw [ran] at ended
      exact ⟨h.of_sound ended.1 ended.2.1, ended.2.2.mono (h.limits_le m').2⟩
  | error exit m' =>
      rw [ran] at ended
      exact h.of_sound ended.1 ended.2.1

/-- A piece of the copy is rewritten. -/
theorem set (h : W.Ready m) (isOwn : W.own id) (moving : ¬ W.still id) (compound : n.isCompound = true)
    (refers : ∀ other, n.Refers other → other < m.pieces.nextId) :
    W.Ready { m with pieces := m.pieces.set id n } := by
  have nextId_eq := Pieces.nextId_set m.pieces id n
  have other_eq {other : PieceId} (differ : id ≠ other) :
      (m.pieces.set id n).get other = m.pieces.get other := by
    rw [Pieces.get_set, if_neg fun both => differ both.1]
  refine ⟨h.start_le, nextId_eq ▸ h.nextId_le, fun other isStill => ?_, fun other isKept notOwn => ?_,
    h.solid.set compound refers, fun other notKept inner refers => ?_, ?_⟩
  · rw [other_eq (show id ≠ other from fun same => moving (same ▸ isStill))]
    exact h.still other isStill
  · rw [other_eq (show id ≠ other from fun same => notOwn (same ▸ isOwn))]
    exact h.same other isKept notOwn
  · have differ : id ≠ other := fun same => notKept (same ▸ W.own_kept id isOwn)
    rw [other_eq differ] at refers
    exact h.apart other notKept inner refers
  · refine h.fits.mono (fun _ allowed => allowed) ⟨fun _ h => h, fun n quoted inner refers => ?_,
      fun _ h => h, fun n code inner refers => ?_, fun _ h => h⟩
    · rw [nextId_eq]
      exact quoted inner refers
    · rw [nextId_eq]
      exact code inner refers

end Ready

/-- What a value is put in as refers to no kept piece. -/
theorem literal_refers {v : Value} (fits : v.Fits (W.limits m)) (literal : Quote.literal v = .ok n)
    (refers : n.Refers id) : id < m.pieces.nextId ∧ ¬ W.kept id := by
  unfold Quote.literal at literal
  split at literal
  · next b _ =>
      cases literal
      cases b <;> exact absurd refers (Node.not_refers_of_not_isCompound rfl rfl id)
  · split at literal
    · cases literal
      exact absurd refers (Node.not_refers_of_not_isCompound rfl rfl id)
    · cases literal
  · cases literal
    exact Value.Fits.quote_iff.1 fits id refers
  · cases literal
  · cases literal

end Rewriting

end MonkeyLang
