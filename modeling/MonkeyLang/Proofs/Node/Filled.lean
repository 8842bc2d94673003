import Mathlib.Order.Monotone.Basic
import MonkeyLang.Node.Pieces
import MonkeyLang.Proofs.Node.Like

/-!
# Pieces among others

The same pieces may be kept by themselves, or with others among them that they do not refer to: then
they have other numbers. A tree that is shown with the pieces in their places has the same text both
times. The bound on how many pieces may stand inside each other is the number of all pieces; it is
another one among others, but it does not matter: a piece that does not stand inside itself has no
more pieces inside each other than there are without the others.

* `Shift` says how the numbers differ.
* `Pieces.Like` relates the pieces by themselves and among others.
* `Pieces.Like.text?_eq` is the equality of texts.
-/

namespace MonkeyLang

/-- How numbers differ when others have been given out in between: those below `base` are the same,
and there is a gap before the later ones. -/
structure Shift where
  base : Nat
  gap : Nat

namespace Shift

variable (k : Shift) {n n' : Nat}

/-- The number with the gap. -/
def move (n : Nat) : Nat := if n < k.base then n else n + k.gap

theorem move_of_lt (old : n < k.base) : k.move n = n := if_pos old

theorem move_of_le (new : k.base ≤ n) : k.move n = n + k.gap := if_neg (Nat.not_lt.2 new)

theorem move_of_gap (none : k.gap = 0) (n : Nat) : k.move n = n := by
  rw [move, none, Nat.add_zero, ite_self]

theorem le_move (n : Nat) : n ≤ k.move n := by
  unfold move
  split <;> omega

@[simp] theorem move_lt_move : k.move n < k.move n' ↔ n < n' := by
  unfold move
  split <;> split <;> omega

@[simp] theorem move_inj : k.move n = k.move n' ↔ n = n' := by
  unfold move
  split <;> split <;> omega

theorem move_succ (new : k.base ≤ n) : k.move (n + 1) = k.move n + 1 := by
  rw [k.move_of_le new, k.move_of_le (Nat.le_succ_of_le new), Nat.add_right_comm]

end Shift

namespace Pieces

/-- The number of a piece by itself and among others. Where there are others, only the first `b`
pieces count. -/
def Moved (k : Shift) (b id id' : Nat) : Prop := id' = k.move id ∧ (k.gap = 0 ∨ id < b)

theorem Moved.mono {k : Shift} {b b' id id' : Nat} (h : Moved k b id id') (more : b ≤ b') :
    Moved k b' id id' :=
  ⟨h.1, h.2.imp_right fun inside => Nat.lt_of_lt_of_le inside more⟩

/-- The pieces `p` are among others in `p'`, and refer to each other only. -/
structure Like (k : Shift) (Names : Text → Prop) (p p' : Pieces) : Prop where
  count : p'.nextId = k.move p.nextId
  base_le : k.base ≤ p.nextId
  get : ∀ {id id'}, Moved k p.nextId id id' →
    (p.get id).Like (Moved k p.nextId) Names (p'.get id')

/-- A number that is none of a piece has nothing. -/
theorem get_of_le {p : Pieces} {id : PieceId} (h : p.nextId ≤ id) : p.get id = .missing := by
  unfold nextId at h
  rw [get, Array.getD_eq_getD_getElem?, Array.getElem?_eq_none h]
  rfl

/-- A node that is no place of a piece is whole when all below it is. -/
theorem fillPlace?_of_ne (p : Pieces) (depth : Nat) {node : Node} (h : ∀ id, node ≠ .piece id) :
    p.fillPlace? depth node = some node := by
  unfold fillPlace?
  split
  · exact absurd rfl (h _)
  · exact absurd rfl (h _)
  · rfl

end Pieces

/-! ## Results side by side -/

/-- If the first computation has a result, the second has one, too, and they are related. -/
def Option.Forth {α : Type} (R : α → α → Prop) (c c' : Option α) : Prop :=
  ∀ a, c = some a → ∃ a', c' = some a' ∧ R a a'

/-- If the second computation has a result, the first has one, too, and they are related. -/
def Option.Back {α : Type} (R : α → α → Prop) (c c' : Option α) : Prop :=
  ∀ a', c' = some a' → ∃ a, c = some a ∧ R a a'

theorem Coupling.forth :
    Coupling fun _ b (c c' : Option _) post => Option.Forth (post b) c c' where
  pure holds a same := by
    cases same
    exact ⟨_, rfl, holds⟩
  bind first then_ b same := by
    obtain ⟨a, found, rest⟩ := Option.bind_eq_some_iff.1 same
    obtain ⟨a', found', holds⟩ := first a found
    obtain ⟨b', rest', holds'⟩ := then_ _ a a' (Nat.le_refl _) holds b rest
    exact ⟨b', Option.bind_eq_some_iff.2 ⟨a', found', rest'⟩, holds'⟩

theorem Coupling.back :
    Coupling fun _ b (c c' : Option _) post => Option.Back (post b) c c' where
  pure holds a same := by
    cases same
    exact ⟨_, rfl, holds⟩
  bind first then_ b' same := by
    obtain ⟨a', found', rest'⟩ := Option.bind_eq_some_iff.1 same
    obtain ⟨a, found, holds⟩ := first a' found'
    obtain ⟨b, rest, holds'⟩ := then_ _ a a' (Nat.le_refl _) holds b' rest'
    exact ⟨b, Option.bind_eq_some_iff.2 ⟨a, found, rest⟩, holds'⟩

namespace Pieces.Like

variable {k : Shift} {Names : Text → Prop} {p p' : Pieces} {node node' : Node}

/-! ## Filling -/

section

variable {K : (α : Type) → Nat → Option α → Option α → (Nat → α → α → Prop) → Prop}

/-- What is no place of a piece stays as it is. -/
theorem fillPlace?_other (h : Coupling K) (d d' b : Nat) (other : ∀ id, node ≠ .piece id)
    (other' : ∀ id, node' ≠ .piece id) (related : node.Like (Moved k p.nextId) Names node') :
    K Node b (p.fillPlace? d node) (p'.fillPlace? d' node') fun _ =>
      Node.Like (Moved k p.nextId) Names := by
  rw [p.fillPlace?_of_ne d other, p'.fillPlace?_of_ne d' other']
  exact h.pure related

/-- What is related of nodes at two depths is related of them one deeper. -/
theorem fillPlace?_succ (like : p.Like k Names p') (h : Coupling K) {d d' : Nat}
    (below : ∀ {b : Nat} {n n' : Node}, n.Like (Moved k p.nextId) Names n' →
      K Node b (p.fillPlace? d n) (p'.fillPlace? d' n') fun _ =>
        Node.Like (Moved k p.nextId) Names)
    {b : Nat} (related : node.Like (Moved k p.nextId) Names node') :
    K Node b (p.fillPlace? (d + 1) node) (p'.fillPlace? (d' + 1) node') fun _ =>
      Node.Like (Moved k p.nextId) Names := by
  rcases related.piece_or with ⟨id, id', rfl, rfl, place⟩ | ⟨other, other'⟩
  · have steps : Coupling.Steps K (Moved k p.nextId) (fun _ => Moved k p.nextId) Names b
        (p.fillPlace? d) (p'.fillPlace? d') :=
      ⟨fun _ place => place, fun place => place, fun _ related _ => below related⟩
    exact h.mono (h.belowM steps (like.get place) b (Nat.le_refl _)) fun _ _ _ _ both =>
      both.like
  · exact fillPlace?_other h _ _ b other other' related

end

variable (like : p.Like k Names p')

include like

theorem fillPlace?_forth {d d' : Nat} (deeper : d ≤ d')
    (related : node.Like (Moved k p.nextId) Names node') :
    Option.Forth (Node.Like (Moved k p.nextId) Names) (p.fillPlace? d node)
      (p'.fillPlace? d' node') := by
  induction d generalizing d' node node' with
  | zero =>
      rcases related.piece_or with ⟨id, id', rfl, rfl, -⟩ | ⟨other, other'⟩
      · exact nofun
      · exact fillPlace?_other .forth _ _ 0 other other' related
  | succ d ih =>
      obtain ⟨d', rfl⟩ : ∃ e, d' = e + 1 := ⟨d' - 1, by omega⟩
      exact like.fillPlace?_succ .forth (b := 0) (fun related => ih (by omega) related) related

theorem fillPlace?_back (d : Nat) (related : node.Like (Moved k p.nextId) Names node') :
    Option.Back (Node.Like (Moved k p.nextId) Names) (p.fillPlace? d node)
      (p'.fillPlace? d node') := by
  induction d generalizing node node' with
  | zero =>
      rcases related.piece_or with ⟨id, id', rfl, rfl, -⟩ | ⟨other, other'⟩
      · exact nofun
      · exact fillPlace?_other .back _ _ 0 other other' related
  | succ d ih => exact like.fillPlace?_succ .back (b := 0) (fun related => ih related) related

/-! ## Depths -/

omit like in
/-- The pieces that are whole at a depth. -/
def filled (p : Pieces) (d : Nat) : Finset PieceId :=
  (Finset.range p.nextId).filter fun id => (p.fillPlace? d (.piece id)).isSome

omit like in
theorem mem_filled {d : Nat} {id : PieceId} :
    id ∈ filled p d ↔ id < p.nextId ∧ ∃ node, p.fillPlace? d (.piece id) = some node := by
  rw [filled, Finset.mem_filter, Finset.mem_range, Option.isSome_iff_exists]

/-- A piece is whole at a depth if the piece among the others is. -/
theorem mem_filled_of_moved {d : Nat} {id : PieceId} {node : Node} (inside : id < p.nextId)
    (whole : p'.fillPlace? d (.piece (k.move id)) = some node) : id ∈ filled p d := by
  obtain ⟨node', found, -⟩ := like.fillPlace?_back d (.piece ⟨rfl, .inr inside⟩) node whole
  exact mem_filled.2 ⟨inside, node', found⟩

theorem filled_subset_succ (d : Nat) : filled p d ⊆ filled p (d + 1) := by
  intro id mem
  obtain ⟨inside, node, found⟩ := mem_filled.1 mem
  obtain ⟨node', found', -⟩ :=
    like.fillPlace?_forth (Nat.le_succ d) (.piece ⟨rfl, .inr inside⟩) node found
  exact like.mem_filled_of_moved inside found'

theorem filled_mono {d e : Nat} (deeper : d ≤ e) : filled p d ⊆ filled p e :=
  monotone_nat_of_le_succ (fun d => like.filled_subset_succ d) deeper

/-- Where no more pieces are whole at a greater depth, no more nodes are. -/
theorem fillPlace?_back_of_subset (others : k.gap ≠ 0) {d e : Nat} (deeper : d ≤ e)
    (subset : filled p e ⊆ filled p d) (related : node.Like (Moved k p.nextId) Names node') :
    Option.Back (Node.Like (Moved k p.nextId) Names) (p.fillPlace? d node)
      (p'.fillPlace? e node') := by
  rcases related.piece_or with ⟨id, _, rfl, rfl, rfl, inside⟩ | ⟨other, other'⟩
  · intro whole' found'
    have mem := subset (like.mem_filled_of_moved (inside.resolve_left others) found')
    obtain ⟨-, whole, found⟩ := mem_filled.1 mem
    obtain ⟨_, again, same⟩ := like.fillPlace?_forth deeper (.piece ⟨rfl, inside⟩) whole found
    cases again.symm.trans found'
    exact ⟨whole, found, same⟩
  · exact fillPlace?_other .back _ _ 0 other other' related

/-- If nothing is whole only one deeper, nothing is whole only two deeper. -/
theorem filled_stable (others : k.gap ≠ 0) {d : Nat} (stable : filled p d = filled p (d + 1)) :
    filled p (d + 1) = filled p (d + 2) := by
  refine (like.filled_subset_succ (d + 1)).antisymm fun id mem => ?_
  obtain ⟨inside, node, found⟩ := mem_filled.1 mem
  have place : Node.Like (Moved k p.nextId) Names (.piece id) (.piece (k.move id)) :=
    .piece ⟨rfl, .inr inside⟩
  obtain ⟨node', found', -⟩ := like.fillPlace?_forth (Nat.le_refl _) place node found
  have back := like.fillPlace?_succ .back (b := 0)
    (like.fillPlace?_back_of_subset others (Nat.le_succ d) stable.symm.subset) place
  obtain ⟨sooner, foundSooner, -⟩ := back node' found'
  exact mem_filled.2 ⟨inside, sooner, foundSooner⟩

/-- As many levels as there are pieces are enough. -/
theorem filled_eq (others : k.gap ≠ 0) {d : Nat} (deeper : p.nextId ≤ d) :
    filled p d = filled p p.nextId := by
  have mono : Monotone fun d => (filled p d).card := fun _ _ deeper =>
    Finset.card_le_card (like.filled_mono deeper)
  have bounded (d : Nat) : (filled p d).card ≤ p.nextId := by
    have le := Finset.card_filter_le (Finset.range p.nextId)
      fun id => (p.fillPlace? d (.piece id)).isSome
    rwa [Finset.card_range] at le
  have stable (d : Nat) (same : (filled p d).card = (filled p (d + 1)).card) :
      (filled p (d + 1)).card = (filled p (d + 2)).card := by
    have equal := Finset.eq_of_subset_of_card_le (like.filled_subset_succ d)
      (Nat.le_of_eq same.symm)
    rw [like.filled_stable others equal]
  have cards := Nat.stabilises_of_monotone mono bounded stable deeper
  exact (Finset.eq_of_subset_of_card_le (like.filled_mono deeper) (Nat.le_of_eq cards)).symm

/-! ## Whole trees -/

theorem whole?_forth (related : node.Like (Moved k p.nextId) Names node') :
    Option.Forth (Node.Like (Moved k p.nextId) Names) (p.whole? node) (p'.whole? node') := by
  have deeper : p.nextId ≤ p'.nextId := by
    rw [like.count]
    exact k.le_move _
  have steps : Coupling.Steps (fun _ b (c c' : Option _) post => Option.Forth (post b) c c')
      (Moved k p.nextId) (fun _ => Moved k p.nextId) Names 0 (p.fillPlace? p.nextId)
      (p'.fillPlace? p'.nextId) :=
    ⟨fun _ place => place, fun place => place, fun _ h _ => like.fillPlace?_forth deeper h⟩
  exact Coupling.forth.transformM steps related

theorem whole?_back (related : node.Like (Moved k p.nextId) Names node') :
    Option.Back (Node.Like (Moved k p.nextId) Names) (p.whole? node) (p'.whole? node') := by
  have back {n n' : Node} (h : n.Like (Moved k p.nextId) Names n') :
      Option.Back (Node.Like (Moved k p.nextId) Names) (p.fillPlace? p.nextId n)
        (p'.fillPlace? p'.nextId n') := by
    rw [like.count]
    rcases Nat.eq_zero_or_pos k.gap with none | others
    · rw [k.move_of_gap none]
      exact like.fillPlace?_back _ h
    · have deeper := k.le_move p.nextId
      exact like.fillPlace?_back_of_subset others.ne' deeper
        (like.filled_eq others.ne' deeper).subset h
  have steps : Coupling.Steps (fun _ b (c c' : Option _) post => Option.Back (post b) c c')
      (Moved k p.nextId) (fun _ => Moved k p.nextId) Names 0 (p.fillPlace? p.nextId)
      (p'.fillPlace? p'.nextId) :=
    ⟨fun _ place => place, fun place => place, fun _ h _ => back h⟩
  exact Coupling.back.transformM steps related

/-- The text of a tree does not depend on the pieces among its own. -/
theorem text?_eq (related : node.Like (Moved k p.nextId) Names node') :
    p.text? node = p'.text? node' := by
  unfold Pieces.text?
  cases whole : p.whole? node with
  | some shown =>
      obtain ⟨shown', whole', same⟩ := like.whole?_forth related shown whole
      rw [whole']
      exact congrArg some same.render_eq
  | none =>
      cases whole' : p'.whole? node' with
      | none => rfl
      | some shown' =>
          obtain ⟨_, found, -⟩ := like.whole?_back related shown' whole'
          cases whole.symm.trans found

end Pieces.Like

end MonkeyLang
