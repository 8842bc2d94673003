import MonkeyLang.Proofs.Machine.Renumbered
import MonkeyLang.Quote

/-!
# Copies among other pieces

A quotation copies the pieces that a tree refers to, each of them once. Among others the same
pieces are copied, to copies with other numbers. The bound on how many pieces are met inside each
other is the number of all pieces, so it is another one there. It is not reached: each piece that is
met has not been copied yet, and of those there are fewer and fewer.

* `Renumbering.CopiesLike` relates the tables of copies, and bounds the pieces that are left.
* `Renumbering.copy_paired`: copies of trees that are like each other are so again.
-/

namespace MonkeyLang

namespace Renumbering

open Eval (piece newPiece setPiece)
open Pieces (Moved)

variable {T : Renumbering} {b b' n u : Nat}

/-! ## Transformations -/

section

variable {ε : Type} {J : Pairing ε Machine} {f f' : Node → EStateM ε Machine Node}
  {node node' : Node}

theorem steps_of_paired (step : ∀ {b node node'}, T.Trees b node node' →
    J.Paired b (f node) (f' node') fun b' => T.Trees b') (b : Nat) :
    Coupling.Steps (fun _ b c c' post => J.Paired b c c' post) (Moved T.pieces b)
      (fun b => Moved T.pieces b) T.Free b f f' :=
  ⟨fun more place => place.mono more, fun place => place, fun _ like _ => step like⟩

theorem belowM_paired (step : ∀ {b node node'}, T.Trees b node node' →
    J.Paired b (f node) (f' node') fun b' => T.Trees b') (like : T.Trees b node node') :
    J.Paired b (node.belowM f) (node'.belowM f') fun b' => T.Trees b' :=
  (J.coupling.belowM (steps_of_paired step b) like b (Nat.le_refl b)).mono
    fun _ _ _ _ below => below.like

theorem transformM_paired (step : ∀ {b node node'}, T.Trees b node node' →
    J.Paired b (f node) (f' node') fun b' => T.Trees b') (like : T.Trees b node node') :
    J.Paired b (node.transformM f) (node'.transformM f') fun b' => T.Trees b' :=
  J.coupling.transformM (steps_of_paired step b) like

end

/-! ## Tables of copies -/

/-- Of the first `n` pieces, those that have not been copied. -/
def uncopied (n : Nat) (copies : Quote.Copies) : Finset PieceId :=
  (Finset.range n).filter fun id => copies.get? id = none

/-- The copies correspond. Among others, at most `u` of the first `n` pieces have not been
copied. -/
structure CopiesLike (T : Renumbering) (n u b : Nat) (copies copies' : Quote.Copies) : Prop where
  get? : ∀ id, copies'.get? (T.pieces.move id) = (copies.get? id).map T.pieces.move
  inside : ∀ {id copy}, copies.get? id = some copy → Moved T.pieces b copy (T.pieces.move copy)
  left : T.pieces.gap = 0 ∨ (uncopied n copies).card ≤ u

namespace CopiesLike

variable {copies copies' : Quote.Copies}

theorem mono (h : T.CopiesLike n u b copies copies') (more : b ≤ b') {u' : Nat} (fewer : u ≤ u') :
    T.CopiesLike n u' b' copies copies' :=
  ⟨h.get?, fun found => (h.inside found).mono more,
    h.left.imp_right fun left => Nat.le_trans left fewer⟩

theorem nil (n : Nat) : T.CopiesLike n n b [] [] := by
  refine ⟨fun _ => rfl, nofun, .inr ?_⟩
  have le := Finset.card_filter_le (Finset.range n) fun id =>
    Assoc.get? id ([] : Quote.Copies) = none
  rwa [Finset.card_range] at le

/-- Where another piece is copied, fewer are left. -/
theorem insert (h : T.CopiesLike n (u + 1) b copies copies') {id copy : PieceId}
    (fresh : copies.get? id = none) (given : T.pieces.gap = 0 ∨ id < n)
    (place : Moved T.pieces b copy (T.pieces.move copy)) :
    T.CopiesLike n u b (copies.insert id copy)
      (copies'.insert (T.pieces.move id) (T.pieces.move copy)) := by
  refine ⟨fun other => ?_, fun {other _} found => ?_, ?_⟩
  · rw [Assoc.get?_insert, Assoc.get?_insert]
    by_cases same : id = other
    · rw [if_pos same, if_pos (congrArg T.pieces.move same)]
      rfl
    · rw [if_neg same, if_neg (mt T.pieces.move_inj.1 same)]
      exact h.get? other
  · rw [Assoc.get?_insert] at found
    split at found
    · cases found
      exact place
    · exact h.inside found
  · rcases given with none | inside
    · exact .inl none
    · refine h.left.imp_right fun left => Nat.le_of_lt_succ (Nat.lt_of_lt_of_le ?_ left)
      refine Finset.card_lt_card ⟨fun other mem => ?_, fun back => ?_⟩
      · rw [uncopied, Finset.mem_filter, Assoc.get?_insert] at mem
        rw [uncopied, Finset.mem_filter]
        refine ⟨mem.1, ?_⟩
        have absent := mem.2
        split at absent
        · cases absent
        · exact absent
      · have mem : id ∈ uncopied n copies :=
          Finset.mem_filter.2 ⟨Finset.mem_range.2 inside, fresh⟩
        have again := (Finset.mem_filter.1 (back mem)).2
        rw [Assoc.get?_insert, if_pos rfl] at again
        cases again

end CopiesLike

/-! ## Copying -/

/-- While pieces are copied, the first `n` stay as they were, and refer to each other only. -/
def copying (T : Renumbering) (n : Nat) : Pairing Exit Machine where
  States b m m' := m.Like T b m' ∧ n ≤ b ∧ (T.pieces.gap ≠ 0 → ∀ id < n,
    T.Trees n (m.pieces.get id) (m'.pieces.get (T.pieces.move id)))
  Exits := Exit.Like T

theorem copying_piece {id : PieceId} (given : T.pieces.gap = 0 ∨ id < n) :
    (T.copying n).Paired b (piece id) (piece (T.pieces.move id)) fun _ => T.Trees n := by
  refine .get_bind fun m m' states => .pure ?_
  by_cases none : T.pieces.gap = 0
  · have place : Moved T.pieces m.pieces.nextId id (T.pieces.move id) := ⟨rfl, .inl none⟩
    have held := states.1.pieces.get place
    exact Node.Like.mono held (fun _ _ place => ⟨place.1, .inl none⟩) fun _ free => free
  · exact states.2.2 none id (given.resolve_left none)

theorem copying_newPiece {node node' : Node} (like : T.Trees n node node') :
    (T.copying n).Paired b (newPiece node) (newPiece node') fun b' id id' =>
      n ≤ id ∧ id' = T.pieces.move id ∧ Moved T.pieces b' id id' := by
  refine .modifyGet fun m m' ⟨states, later, held⟩ => ?_
  have size := states.size
  have count := states.pieces.count
  refine ⟨b + 1, Nat.le_succ b, ⟨states.addPiece (Trees.mono like later),
    Nat.le_succ_of_le later, fun others id inside => ?_⟩, ?_, count, count, ?_⟩
  · have old : id ≠ m.pieces.nextId := by
      rw [size]
      exact (Nat.lt_of_lt_of_le inside later).ne
    rw [Pieces.get_add, Pieces.get_add, if_neg old, if_neg]
    · exact held others id inside
    · rw [count]
      exact mt T.pieces.move_inj.1 old
  · rw [← size] at later
    exact later
  · exact .inr (Nat.lt_succ_of_le (Nat.le_of_eq size))

theorem copying_setPiece {id : PieceId} (copy : n ≤ id) {node node' : Node}
    (place : Moved T.pieces b id (T.pieces.move id)) (like : T.Trees b node node') :
    (T.copying n).Paired b (setPiece id node) (setPiece (T.pieces.move id) node')
      fun _ _ _ => True := by
  refine .modifyGet fun m m' ⟨states, later, held⟩ =>
    ⟨b, Nat.le_refl b, ⟨states.setPiece place like, later, fun others old inside => ?_⟩, trivial⟩
  have other : id ≠ old := (Nat.lt_of_lt_of_le inside copy).ne'
  rw [Pieces.get_set, Pieces.get_set, if_neg fun both => other both.1,
    if_neg fun both => other (T.pieces.move_inj.1 both.1)]
  exact held others old inside

/-- Computations that copy pieces are paired, and so are the tables of copies. -/
def Copying (T : Renumbering) (n u : Nat) {α : Type} (b : Nat) (c c' : StateT Quote.Copies Eval α)
    (post : Nat → α → α → Prop) : Prop :=
  ∀ copies copies', T.CopiesLike n u b copies copies' →
    (T.copying n).Paired b (c.run copies) (c'.run copies') fun b' result result' =>
      post b' result.1 result'.1 ∧ T.CopiesLike n u b' result.2 result'.2

theorem coupling_copying (T : Renumbering) (n u : Nat) :
    Coupling fun _ b c c' post => T.Copying n u b c c' post where
  pure h _ _ likes := .pure ⟨h, likes⟩
  bind first then_ copies copies' likes :=
    (first copies copies' likes).bind fun _ result result' more h =>
      then_ _ result.1 result'.1 more h.1 result.2 result'.2 h.2

/-- The bounds are the same ones where nothing else is, and else they are not reached. -/
def Enough (T : Renumbering) (u d d' : Nat) : Prop :=
  T.pieces.gap = 0 ∧ d = d' ∨ T.pieces.gap ≠ 0 ∧ u < d ∧ d ≤ d'

theorem copyPlace_of_ne (d : Nat) {node : Node} (other : ∀ id, node ≠ .piece id) :
    Quote.copyPlace d node = pure node := by
  unfold Quote.copyPlace
  split
  · exact absurd rfl (other _)
  · rfl

section

variable {d : Nat} {id copy : PieceId} {copies : Quote.Copies}

theorem run_copyPlace_of_copied (copied : copies.get? id = some copy) :
    (Quote.copyPlace (d + 1) (.piece id)).run copies = pure (.piece copy, copies) := by
  rw [Quote.copyPlace, StateT.run_bind, StateT.run_get, pure_bind]
  dsimp only
  rw [copied]
  rfl

theorem run_copyPlace_of_fresh (fresh : copies.get? id = none) :
    (Quote.copyPlace (d + 1) (.piece id)).run copies = (do
      let node ← piece id
      let copy ← newPiece node
      let result ← (node.belowM (Quote.copyPlace d)).run (copies.insert id copy)
      setPiece copy result.1
      return (.piece copy, result.2)) := by
  rw [Quote.copyPlace, StateT.run_bind, StateT.run_get, pure_bind]
  dsimp only
  rw [fresh]
  simp

end

/-- Where a piece is met that has not been copied, the bounds are not reached, and those one smaller
are enough when it has been. -/
theorem Enough.succ {d d' : Nat} {id : PieceId} {copies copies' : Quote.Copies}
    (enough : T.Enough u (d + 1) (d' + 1)) (likes : T.CopiesLike n u b copies copies')
    (fresh : copies.get? id = none) (given : T.pieces.gap = 0 ∨ id < n) :
    ∃ v ≤ u, T.CopiesLike n (v + 1) b copies copies' ∧ T.Enough v d d' := by
  by_cases none : T.pieces.gap = 0
  · refine ⟨u, Nat.le_refl u, likes.mono (Nat.le_refl b) (Nat.le_succ u), .inl ⟨none, ?_⟩⟩
    rcases enough with ⟨-, same⟩ | ⟨others, -⟩
    · exact Nat.succ.inj same
    · exact absurd none others
  · have mem : id ∈ uncopied n copies :=
      Finset.mem_filter.2 ⟨Finset.mem_range.2 (given.resolve_left none), fresh⟩
    have some := Finset.card_pos.2 ⟨id, mem⟩
    have left := likes.left.resolve_left none
    obtain ⟨v, rfl⟩ : ∃ v, u = v + 1 := ⟨u - 1, by omega⟩
    refine ⟨v, Nat.le_succ v, likes, .inr ?_⟩
    rcases enough with ⟨noOthers, -⟩ | ⟨-, deep, deeper⟩
    · exact absurd noOthers none
    · exact ⟨none, Nat.lt_of_succ_lt_succ deep, Nat.le_of_succ_le_succ deeper⟩

/-- A piece that has not been copied is copied, and below it copying goes on with one piece less
left. -/
theorem copyPlace_fresh_paired (later : n ≤ b) {v d d' : Nat} {id : PieceId}
    (given : T.pieces.gap = 0 ∨ id < n) {copies copies' : Quote.Copies}
    (likes : T.CopiesLike n (v + 1) b copies copies') (fresh : copies.get? id = none)
    (step : ∀ {b : Nat} {node node' : Node}, n ≤ b → T.Trees b node node' →
      (∀ id id', node = .piece id → node' = .piece id' → Moved T.pieces n id id') →
      T.Copying n v b (Quote.copyPlace d node) (Quote.copyPlace d' node') fun b' => T.Trees b') :
    (T.copying n).Paired b ((Quote.copyPlace (d + 1) (.piece id)).run copies)
      ((Quote.copyPlace (d' + 1) (.piece (T.pieces.move id))).run copies') fun b' result result' =>
        T.Trees b' result.1 result'.1 ∧ T.CopiesLike n v b' result.2 result'.2 := by
  have fresh' := likes.get? id
  rw [fresh] at fresh'
  rw [run_copyPlace_of_fresh fresh, run_copyPlace_of_fresh fresh']
  refine (copying_piece given).bind fun b₁ held held' more₁ like => ?_
  refine (copying_newPiece like).bind fun b₂ copy copy' more₂ ⟨new, same, placed⟩ => ?_
  subst same
  have more := Nat.le_trans more₁ more₂
  have inserted := (likes.mono more (Nat.le_refl _)).insert fresh given placed
  have steps : Coupling.Steps (fun _ b c c' post => T.Copying n v b c c' post)
      (Moved T.pieces n) (fun b => Moved T.pieces b) T.Free n (Quote.copyPlace d)
      (Quote.copyPlace d') :=
    ⟨fun more place => place.mono more, fun place => place, step⟩
  have below := (T.coupling_copying n v).belowM steps like b₂ (Nat.le_trans later more)
  refine (below _ _ inserted).bind fun b₃ result result' more₃ ⟨like, likes⟩ => ?_
  have placed := placed.mono more₃
  refine (copying_setPiece new placed like.like).bind fun b₄ _ _ more₄ _ => .pure ?_
  exact ⟨.piece (placed.mono more₄), likes.mono more₄ (Nat.le_refl v)⟩

theorem copyPlace_paired (later : n ≤ b) {u d d' : Nat} (enough : T.Enough u d d')
    {node node' : Node} (like : T.Trees b node node')
    (given : ∀ id id', node = .piece id → node' = .piece id' → Moved T.pieces n id id') :
    T.Copying n u b (Quote.copyPlace d node) (Quote.copyPlace d' node') fun b' => T.Trees b' := by
  induction d generalizing b u d' node node' with
  | zero =>
      rcases enough with ⟨-, rfl⟩ | ⟨-, none, -⟩
      · unfold Quote.copyPlace
        exact (T.coupling_copying n u).pure like
      · exact absurd none (Nat.not_lt_zero u)
  | succ d ih =>
      obtain ⟨d', rfl⟩ : ∃ e, d' = e + 1 := by
        rcases enough with ⟨-, rfl⟩ | ⟨-, -, deeper⟩
        · exact ⟨d, rfl⟩
        · exact ⟨d' - 1, by omega⟩
      rcases like.piece_or with ⟨id, id', rfl, rfl, -⟩ | ⟨other, other'⟩
      · obtain ⟨rfl, inside⟩ := given id id' rfl rfl
        intro copies copies' likes
        cases found : copies.get? id with
        | some copy =>
            have found' := likes.get? id
            rw [found] at found'
            rw [run_copyPlace_of_copied found, run_copyPlace_of_copied found']
            exact .pure ⟨.piece (likes.inside found), likes⟩
        | none =>
            -- From here on one piece less is left, so the bounds one smaller are enough.
            obtain ⟨v, fewer, before, enough⟩ := enough.succ likes found inside
            have copied := copyPlace_fresh_paired later inside before found
              fun later like given => ih later enough like given
            exact copied.mono fun b' _ _ _ both => ⟨both.1, both.2.mono (Nat.le_refl b') fewer⟩
      · rw [copyPlace_of_ne _ other, copyPlace_of_ne _ other']
        exact (T.coupling_copying n u).pure like

/-- Copies of trees that are like each other are so again. -/
theorem copy_paired {node node' : Node} (like : T.Trees b node node') :
    T.Paired b (Quote.copy node) (Quote.copy node') fun b' => T.Trees b' := by
  refine .get_bind fun m m' states => ?_
  have enough : T.Enough b (m.pieces.nextId + 1) (m'.pieces.nextId + 1) := by
    rw [states.pieces.count, states.size]
    rcases Nat.eq_zero_or_pos T.pieces.gap with none | others
    · exact .inl ⟨none, by rw [T.pieces.move_of_gap none]⟩
    · exact .inr ⟨others.ne', Nat.lt_succ_self b, Nat.succ_le_succ (T.pieces.le_move b)⟩
  have steps : Coupling.Steps (fun _ b' c c' post => T.Copying b b b' c c' post)
      (Moved T.pieces b) (fun b' => Moved T.pieces b') T.Free b
      (Quote.copyPlace (m.pieces.nextId + 1)) (Quote.copyPlace (m'.pieces.nextId + 1)) :=
    ⟨fun more place => place.mono more, fun place => place,
      fun later like given => copyPlace_paired later enough like given⟩
  have copied := (T.coupling_copying b b).transformM steps like [] [] (.nil b)
  have result : (T.copying b).Paired b
      ((node.transformM (Quote.copyPlace (m.pieces.nextId + 1))).run' [])
      ((node'.transformM (Quote.copyPlace (m'.pieces.nextId + 1))).run' []) fun b' => T.Trees b' :=
    copied.bind fun _ _ _ _ h => .pure h.1
  refine result.of_stronger (fun m m' states => ⟨states, Nat.le_refl b, fun _ id inside => ?_⟩)
    (fun _ _ _ states => states.1) fun _ _ _ exits => exits
  have held := states.pieces.get ⟨rfl, .inr (states.size.symm ▸ inside)⟩
  rwa [states.size] at held

end Renumbering

end MonkeyLang
