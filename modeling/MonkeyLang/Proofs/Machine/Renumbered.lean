import MonkeyLang.Machine
import MonkeyLang.Proofs.Machine.Pairing
import MonkeyLang.Proofs.Value.Like

/-!
# Machines with other numbers

The machine of a program that runs behind others holds more scopes, pieces and bindings than the one
of the program by itself. `Machine.Like` says that it holds the same things under other numbers, as
far as the program meets them. Each step on such machines leads to such machines again.

* `Store.Like.lookup`: a name that nothing else is bound to has values that are like each other.
* `Renumbering.pairing` is the pairing of runs on such machines; the lemmas behind it pair steps.
-/

namespace MonkeyLang

variable {T : Renumbering} {b b' : Nat}

/-! ## Scopes -/

/-- The bindings are those of the first scope behind some others, and the scopes around are the
same. -/
structure Scope.Like (T : Renumbering) (b : Nat) (extra : Assoc Text Value)
    (scope scope' : Scope) : Prop where
  outer : scope'.outer = scope.outer.map T.scope
  met : ∀ around, scope.outer = some around → T.Met around
  bindings : ∃ own, scope'.bindings = extra ++ own ∧
    scope.bindings.Like (Value.Like T b) own

/-- The scopes of the first store that a program meets are in the second. -/
structure Store.Like (T : Renumbering) (b : Nat) (s s' : Store) : Prop where
  count : s'.nextId = T.scope s.nextId
  base_le : T.scopes.base ≤ s.nextId
  scope : ∀ id, T.Met id → (s.scope id).Like T b (T.extra id) (s'.scope (T.scope id))

theorem Scope.Like.mono {extra : Assoc Text Value} {scope scope' : Scope}
    (h : scope.Like T b extra scope') (more : b ≤ b') : scope.Like T b' extra scope' := by
  obtain ⟨own, same, like⟩ := h.bindings
  exact ⟨h.outer, h.met, own, same, like.mono fun _ _ like => like.mono more⟩

namespace Store.Like

variable {s s' : Store}

theorem mono (h : s.Like T b s') (more : b ≤ b') : s.Like T b' s' :=
  ⟨h.count, h.base_le, fun id met => (h.scope id met).mono more⟩

theorem get? (h : s.Like T b s') {name : Text} (free : T.Free name) {id : ScopeId}
    (met : T.Met id) : Option.Rel (Value.Like T b) ((s.scope id).bindings.get? name)
      ((s'.scope (T.scope id)).bindings.get? name) := by
  obtain ⟨own, same, like⟩ := (h.scope id met).bindings
  rw [same, Assoc.get?_append (free id)]
  exact like.get?

/-- The scopes around correspond. -/
theorem outer?_eq (h : s.Like T b s') {id : ScopeId} (met : T.Met id) :
    (s'.outer? (T.scope id)).map Subtype.val =
      (s.outer? id).map fun outer => T.scope outer.val := by
  unfold Store.outer?
  rw [(h.scope id met).outer]
  cases (s.scope id).outer with
  | none => rfl
  | some outer =>
      dsimp only [Option.map_some]
      by_cases older : outer < id
      · rw [dif_pos older, dif_pos (T.scopes.move_lt_move.2 older)]
        rfl
      · rw [dif_neg older, dif_neg (mt T.scopes.move_lt_move.1 older)]
        rfl

/-- A name that nothing else is bound to is looked up alike. -/
theorem lookup (h : s.Like T b s') {name : Text} (free : T.Free name) {id : ScopeId}
    (met : T.Met id) :
    Option.Rel (Value.Like T b) (s.lookup id name) (s'.lookup (T.scope id) name) := by
  induction id using Nat.strong_induction_on with
  | _ id ih =>
    rw [Store.lookup, Store.lookup]
    have found := h.get? free met
    have around := h.outer?_eq met
    have metOuter (inner) (outer : s.outer? id = some inner) : T.Met inner.1 :=
      (h.scope id met).met inner.1 (outer_of_outer? outer)
    generalize (s.scope id).bindings.get? name = bound,
      (s'.scope (T.scope id)).bindings.get? name = bound' at found ⊢
    generalize s.outer? id = outer, s'.outer? (T.scope id) = outer' at around metOuter ⊢
    cases found with
    | some like => exact .some like
    | none =>
        cases outer with
        | none =>
            cases outer' with
            | none => exact .none
            | some inner => cases around
        | some inner =>
            obtain ⟨outer, older⟩ := inner
            cases outer' with
            | none => cases around
            | some inner' =>
                obtain ⟨_, _⟩ := inner'
                cases around
                exact ih outer older (metOuter _ rfl)

theorem enter (h : s.Like T b s') {outer : ScopeId} (met : T.Met outer)
    {bindings bindings' : Assoc Text Value} (likes : bindings.Like (Value.Like T b) bindings') :
    (s.enter (some outer) bindings).Like T b (s'.enter (some (T.scope outer)) bindings') := by
  refine ⟨?_, ?_, fun id metInner => ?_⟩
  · rw [nextId_enter, nextId_enter, h.count]
    exact (T.scopes.move_succ h.base_le).symm
  · rw [nextId_enter]
    exact Nat.le_succ_of_le h.base_le
  · rw [scope_enter, scope_enter, h.count]
    by_cases new : id = s.nextId
    · subst new
      rw [if_pos rfl, if_pos rfl, T.inner _ h.base_le]
      refine ⟨rfl, fun around same => ?_, bindings', rfl, likes⟩
      cases same
      exact met
    · rw [if_neg new, if_neg (mt T.scopes.move_inj.1 new)]
      exact h.scope id metInner

theorem bind (h : s.Like T b s') {name : Text} (free : T.Free name) (id : ScopeId)
    {v v' : Value} (like : v.Like T b v') :
    (s.bind id name v).Like T b (s'.bind (T.scope id) name v') := by
  refine ⟨?_, ?_, fun other met => ?_⟩
  · rw [nextId_bind, nextId_bind, h.count]
  · rw [nextId_bind]
    exact h.base_le
  · simp only [scope_bind, h.count, Shift.move_inj, Shift.move_lt_move]
    split
    · next both =>
      obtain ⟨rfl, -⟩ := both
      have held := h.scope id met
      obtain ⟨own, same, likes⟩ := held.bindings
      refine ⟨held.outer, held.met, own.insert name v', ?_, likes.insert like⟩
      dsimp only
      rw [same, Assoc.insert_append (free id)]
    · exact h.scope other met

end Store.Like

/-! ## Machines -/

/-- What a program meets on the first machine is on the second, under other numbers. -/
structure Machine.Like (T : Renumbering) (b : Nat) (m m' : Machine) : Prop where
  size : m.pieces.nextId = b
  store : m.store.Like T b m'.store
  pieces : m.pieces.Like T.pieces T.Free m'.pieces
  serials : m'.nextSerial = T.serials.move m.nextSerial
  base_le : T.serials.base ≤ m.nextSerial
  printed : ∃ lines, m.printed = T.printed ++ lines ∧ m'.printed = T.printed' ++ lines

/-- Exits with the same fault or halt, or with values that are like each other. -/
inductive Exit.Like (T : Renumbering) (b : Nat) : Exit → Exit → Prop
  | failed {fault : Fault} : Like T b (.failed fault) (.failed fault)
  | returned {v v' : Value} : v.Like T b v' → Like T b (.returned v) (.returned v')
  | halted {halt : Halt} : Like T b (.halted halt) (.halted halt)

namespace Renumbering

/-- The pairing of runs by itself and behind others. -/
def pairing (T : Renumbering) : Pairing Exit Machine := ⟨Machine.Like T, Exit.Like T⟩

end Renumbering

namespace Machine.Like

variable {m m' : Machine}

/-- What has been remarked makes no difference. -/
theorem remark (h : m.Like T b m') (r r' : Remark) : (m.remark r).Like T b (m'.remark r') := by
  refine ⟨h.size, h.store, h.pieces, h.serials, h.base_le, ?_⟩
  have silent (m : Machine) (r : Remark) : (m.remark r).printed = m.printed := by
    simp [Machine.remark, Machine.emit, Machine.printed]
  rw [silent, silent]
  exact h.printed

theorem print (h : m.Like T b m') (line : Text) :
    (m.emit (.printed line)).Like T b (m'.emit (.printed line)) := by
  refine ⟨h.size, h.store, h.pieces, h.serials, h.base_le, ?_⟩
  have more (m : Machine) : (m.emit (.printed line)).printed = m.printed ++ [line] := by
    simp [Machine.emit, Machine.printed]
  obtain ⟨lines, same, same'⟩ := h.printed
  refine ⟨lines ++ [line], ?_, ?_⟩
  · rw [more, same, List.append_assoc]
  · rw [more, same', List.append_assoc]

/-- The lines that have been printed since are the same. -/
theorem printed_drop_eq (h : m.Like T b m') {m₁ m₁' : Machine} (after : m₁.Like T b' m₁') :
    m₁.printed.drop m.printed.length = m₁'.printed.drop m'.printed.length := by
  obtain ⟨lines, same, same'⟩ := h.printed
  obtain ⟨lines₁, same₁, same₁'⟩ := after.printed
  rw [same, same', same₁, same₁', List.length_append, List.length_append, ← List.drop_drop,
    ← List.drop_drop, List.drop_left, List.drop_left]

theorem addPiece (h : m.Like T b m') {node node' : Node} (like : T.Trees b node node') :
    ({ m with pieces := m.pieces.add node } : Machine).Like T (b + 1)
      { m' with pieces := m'.pieces.add node' } := by
  have size (p : Pieces) (n : Node) : (p.add n).nextId = p.nextId + 1 := by
    simp [Pieces.add, Pieces.nextId]
  have more : b ≤ b + 1 := Nat.le_succ b
  refine ⟨by rw [size, h.size], h.store.mono more, ⟨?_, ?_, ?_⟩, h.serials, h.base_le, h.printed⟩
  · rw [size, size, h.pieces.count, T.pieces.move_succ h.pieces.base_le]
  · rw [size]
    exact Nat.le_succ_of_le h.pieces.base_le
  · rintro (id : Nat) _ ⟨rfl, inside⟩
    rw [size] at inside ⊢
    rw [Pieces.get_add, Pieces.get_add, h.pieces.count]
    -- The number of the new piece is the next one on both sides.
    by_cases new : id = m.pieces.nextId
    · subst new
      rw [if_pos rfl, if_pos rfl, h.size]
      exact Renumbering.Trees.mono like more
    · rw [if_neg new, if_neg (mt T.pieces.move_inj.1 new)]
      have older (inside : id < m.pieces.nextId + 1) : id < m.pieces.nextId :=
        Nat.lt_of_le_of_ne (Nat.le_of_lt_succ inside) new
      exact Renumbering.Trees.mono (h.pieces.get ⟨rfl, inside.imp_right older⟩) (Nat.le_succ _)

theorem setPiece (h : m.Like T b m') {id id' : PieceId} {node node' : Node}
    (place : Pieces.Moved T.pieces b id id') (like : T.Trees b node node') :
    ({ m with pieces := m.pieces.set id node } : Machine).Like T b
      { m' with pieces := m'.pieces.set id' node' } := by
  obtain ⟨rfl, inside⟩ := place
  refine ⟨by rw [Pieces.nextId_set, h.size], h.store, ⟨?_, ?_, ?_⟩, h.serials, h.base_le, h.printed⟩
  · rw [Pieces.nextId_set, Pieces.nextId_set, h.pieces.count]
  · rw [Pieces.nextId_set]
    exact h.pieces.base_le
  · rintro (other : Nat) _ ⟨rfl, otherInside⟩
    rw [Pieces.nextId_set] at otherInside ⊢
    simp only [Pieces.get_set, h.pieces.count, Shift.move_inj, Shift.move_lt_move]
    split
    · rw [h.size]
      exact like
    · exact h.pieces.get ⟨rfl, otherInside⟩

end Machine.Like

/-! ## Steps -/

namespace Renumbering

open Eval

variable {α : Type} {post : Nat → α → α → Prop}

/-- The computations of two evaluations are paired. -/
abbrev Paired (T : Renumbering) (b : Nat) (c c' : Eval α) (post : Nat → α → α → Prop) : Prop :=
  T.pairing.Paired b c c' post

theorem fail_paired {fault : Fault} : T.Paired b (fail fault) (fail fault) post :=
  .throw .failed

theorem halt_paired {halt : Halt} :
    T.Paired b (throw (.halted halt)) (throw (.halted halt)) post :=
  .throw .halted

theorem ofExcept_paired {R : α → α → Prop} {result result' : Except Fault α}
    (h : Except.Like R result result') :
    T.Paired b (ofExcept result) (ofExcept result') fun _ => R := by
  match result, result', h with
  | .ok a, .ok a', h => exact .pure h
  | .error fault, .error _, h =>
    cases h
    exact fail_paired

theorem value_paired {result result' : Except Fault Value}
    (h : Except.Like (Value.Like T b) result result') :
    T.Paired b (ofExcept result) (ofExcept result') fun b' => Value.Like T b' :=
  (ofExcept_paired h).mono fun _ _ _ more like => like.mono more

theorem newSerial_paired :
    T.Paired b newSerial newSerial fun _ serial serial' => serial' = T.serials.move serial := by
  refine .modifyGet fun m m' like => ⟨b, Nat.le_refl b, ⟨like.size, like.store, like.pieces, ?_,
    Nat.le_succ_of_le like.base_le, like.printed⟩, like.serials⟩
  dsimp only
  rw [like.serials, T.serials.move_succ like.base_le]

theorem newPiece_paired {node node' : Node} (like : T.Trees b node node') :
    T.Paired b (newPiece node) (newPiece node') fun b' id id' =>
      b ≤ id ∧ Pieces.Moved T.pieces b' id id' := by
  refine .modifyGet fun m m' states => ⟨b + 1, Nat.le_succ b, states.addPiece like, ?_⟩
  have size := states.size
  exact ⟨Nat.le_of_eq size.symm, states.pieces.count, .inr (Nat.lt_succ_of_le (Nat.le_of_eq size))⟩

theorem setPiece_paired {id id' : PieceId} {node node' : Node}
    (place : Pieces.Moved T.pieces b id id') (like : T.Trees b node node') :
    T.Paired b (setPiece id node) (setPiece id' node') fun _ _ _ => True :=
  .modifyGet fun _ _ states => ⟨b, Nat.le_refl b, states.setPiece place like, trivial⟩

theorem piece_paired {id id' : PieceId} (place : Pieces.Moved T.pieces b id id') :
    T.Paired b (piece id) (piece id') fun b' => T.Trees b' := by
  refine .get_bind fun m m' states => .pure ?_
  have held := states.pieces.get (states.size.symm ▸ place)
  rwa [states.size] at held

theorem bind_paired {name : Text} (free : T.Free name) (scope : ScopeId) {v v' : Value}
    (like : v.Like T b v') :
    T.Paired b (Eval.bind scope name v) (Eval.bind (T.scope scope) name v') fun _ _ _ => True :=
  .modifyGet fun _ _ states => ⟨b, Nat.le_refl b, ⟨states.size, states.store.bind free scope like,
    states.pieces, states.serials, states.base_le, states.printed⟩, trivial⟩

theorem newScope_paired {outer : ScopeId} (met : T.Met outer)
    {bindings bindings' : Assoc Text Value} (likes : bindings.Like (Value.Like T b) bindings') :
    T.Paired b (newScope outer bindings) (newScope (T.scope outer) bindings') fun _ id id' =>
      T.Met id ∧ id' = T.scope id :=
  .modifyGet fun _ _ states => ⟨b, Nat.le_refl b, ⟨states.size, states.store.enter met likes,
    states.pieces, states.serials, states.base_le, states.printed⟩, .inr states.store.base_le,
    states.store.count⟩

theorem inspect_paired {v v' : Value} (like : v.Like T b v') :
    T.Paired b (Eval.inspect v) (Eval.inspect v') fun _ text text' => text = text' := by
  refine .get_bind fun m m' states => ?_
  rw [Value.Like.inspect_eq states.pieces (states.size.symm ▸ like)]
  cases v'.inspect m'.pieces with
  | ok text => exact .pure rfl
  | error halt => exact halt_paired

theorem print_paired {v v' : Value} (like : v.Like T b v') :
    T.Paired b (print v) (print v') fun _ _ _ => True := by
  refine (inspect_paired like).bind fun b₁ text _ _ same => ?_
  cases same
  exact .modifyGet fun _ _ states => ⟨b₁, Nat.le_refl _, states.print text, trivial⟩

end Renumbering

end MonkeyLang
