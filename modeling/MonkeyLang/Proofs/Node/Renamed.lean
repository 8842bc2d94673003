import Mathlib.Data.List.Basic
import MonkeyLang.Proofs.Node.Children

/-!
# The pieces a tree refers to

A tree refers to pieces by their numbers. When the pieces get other numbers, the tree is renamed and
stays what it is in all else.

* `Node.Refers` says which pieces stand in a tree.
* `Node.rename` gives them other numbers.
-/

namespace MonkeyLang

namespace Node

/-- A place of the piece stands in the tree. -/
inductive Refers : Node → PieceId → Prop
  | piece {id : PieceId} : Refers (.piece id) id
  | child {n c : Node} {id : PieceId} : c ∈ n.children → Refers c id → Refers n id

theorem refers_piece_iff {id other : PieceId} : (piece id).Refers other ↔ other = id := by
  constructor
  · intro refers
    cases refers with
    | piece => rfl
    | child mem => cases mem
  · rintro rfl
    exact .piece

theorem refers_iff_of_not_piece {n : Node} (other : n.isPiece = false) {id : PieceId} :
    n.Refers id ↔ ∃ c ∈ n.children, c.Refers id := by
  constructor
  · intro refers
    cases refers with
    | piece => cases other
    | child mem refers => exact ⟨_, mem, refers⟩
  · rintro ⟨c, mem, refers⟩
    exact .child mem refers

/-- As many nodes as some pairs have are themselves pairs. -/
theorem flatMap_pairUp {ns : List Node} {ps : List (Node × Node)}
    (same : ns.length = (ps.flatMap fun p => [p.1, p.2]).length) :
    ((pairUp ns).flatMap fun p => [p.1, p.2]) = ns := by
  induction ps generalizing ns with
  | nil =>
      rw [List.eq_nil_of_length_eq_zero same]
      rfl
  | cons p ps ih =>
      rcases ns with _ | ⟨key, _ | ⟨value, others⟩⟩
      · simp at same
      · simp at same
      · have fewer : others.length = (ps.flatMap fun p => [p.1, p.2]).length := by
          simpa using same
        change key :: value :: ((pairUp others).flatMap fun p => [p.1, p.2]) = _
        rw [ih fewer]

/-- The children of a node that has been put together are those it was put together from. -/
theorem children_withChildren {n : Node} {ns : List Node}
    (same : ns.length = n.children.length) : (n.withChildren ns).children = ns := by
  cases n with
  | missing | ident | int | bool | str | piece => exact (List.eq_nil_of_length_eq_zero same).symm
  | program | block | array => rfl
  | letStmt | returnStmt | exprStmt | unary =>
      obtain ⟨v, rfl⟩ := List.length_eq_one_iff.1 same
      rfl
  | binary | index =>
      obtain ⟨l, r, rfl⟩ := List.length_eq_two.1 same
      rfl
  | ifElse =>
      obtain ⟨c, t, e, rfl⟩ := List.length_eq_three.1 same
      rfl
  | fnLit t ps b =>
      obtain rfl | ⟨ps', b', rfl⟩ := ns.eq_nil_or_concat
      · simp [children] at same
      · rw [List.concat_eq_append, withChildren_fnLit]
        rfl
  | macroLit t ps b =>
      obtain rfl | ⟨ps', b', rfl⟩ := ns.eq_nil_or_concat
      · simp [children] at same
      · rw [List.concat_eq_append, withChildren_macroLit]
        rfl
  | call =>
      cases ns with
      | nil => cases same
      | cons c as => rfl
  | hash t ps => exact flatMap_pairUp same

/-- Only the last children that a node gets count. -/
theorem withChildren_withChildren {n : Node} {ns ws : List Node}
    (same : ns.length = n.children.length) (same' : ws.length = n.children.length) :
    (n.withChildren ns).withChildren ws = n.withChildren ws := by
  cases n with
  | missing | ident | int | bool | str | piece => rfl
  | program | block | array | hash | fnLit | macroLit => rfl
  | letStmt | returnStmt | exprStmt | unary =>
      obtain ⟨v, rfl⟩ := List.length_eq_one_iff.1 same
      obtain ⟨v', rfl⟩ := List.length_eq_one_iff.1 same'
      rfl
  | binary | index =>
      obtain ⟨l, r, rfl⟩ := List.length_eq_two.1 same
      obtain ⟨l', r', rfl⟩ := List.length_eq_two.1 same'
      rfl
  | ifElse =>
      obtain ⟨c, t, e, rfl⟩ := List.length_eq_three.1 same
      obtain ⟨c', t', e', rfl⟩ := List.length_eq_three.1 same'
      rfl
  | call =>
      cases ns with
      | nil => cases same
      | cons c as =>
          cases ws with
          | nil => cases same'
          | cons c' as' => rfl

/-! ## Renaming -/

/-- A place of a piece becomes one of the piece's other number. -/
def renamePlace (ρ : PieceId → PieceId) : Node → Node
  | piece id => piece (ρ id)
  | node => node

/-- The tree with other numbers of pieces. -/
def rename (ρ : PieceId → PieceId) (node : Node) : Node :=
  Id.run (node.transformM fun n => pure (renamePlace ρ n))

@[simp] theorem rename_piece (ρ : PieceId → PieceId) (id : PieceId) :
    (piece id).rename ρ = piece (ρ id) :=
  rfl

theorem rename_eq {ρ : PieceId → PieceId} {n : Node} (other : n.isPiece = false) :
    n.rename ρ = n.withChildren (n.children.map (rename ρ)) := by
  have children : n.children.mapM (m := Id) (transformM fun n => pure (renamePlace ρ n)) =
      pure (n.children.map (rename ρ)) := by
    induction n.children with
    | nil => rfl
    | cons c cs ih =>
        rw [List.mapM_cons, ih]
        rfl
  rw [rename, transformM_eq, children, pure_bind]
  have other' : (n.withChildren (n.children.map (rename ρ))).isPiece = false := by
    rw [isPiece_withChildren, other]
  generalize n.withChildren (n.children.map (rename ρ)) = result at other' ⊢
  cases result with
  | piece id => cases other'
  | _ => rfl

theorem isPiece_rename (ρ : PieceId → PieceId) (n : Node) : (n.rename ρ).isPiece = n.isPiece := by
  cases h : n.isPiece with
  | true =>
      obtain ⟨id, rfl⟩ := eq_piece_of_isPiece h
      rfl
  | false => rw [rename_eq h, isPiece_withChildren, h]

theorem children_rename {ρ : PieceId → PieceId} {n : Node} (other : n.isPiece = false) :
    (n.rename ρ).children = n.children.map (rename ρ) := by
  rw [rename_eq other, children_withChildren (List.length_map _)]

/-- Only the numbers that the tree refers to count. -/
theorem rename_congr {ρ ρ' : PieceId → PieceId} (n : Node)
    (same : ∀ id, n.Refers id → ρ id = ρ' id) : n.rename ρ = n.rename ρ' := by
  induction n using childInduction with
  | step n ih =>
      cases h : n.isPiece with
      | true =>
          obtain ⟨id, rfl⟩ := eq_piece_of_isPiece h
          rw [rename_piece, rename_piece, same id .piece]
      | false =>
          rw [rename_eq h, rename_eq h]
          congr 1
          exact List.map_congr_left fun c mem => ih c mem fun id refers => same id (.child mem refers)

/-- A renamed tree refers to the renamed numbers. -/
theorem refers_rename_iff {ρ : PieceId → PieceId} {n : Node} {id : PieceId} :
    (n.rename ρ).Refers id ↔ ∃ old, n.Refers old ∧ ρ old = id := by
  induction n using childInduction with
  | step n ih =>
      cases h : n.isPiece with
      | true =>
          obtain ⟨old, rfl⟩ := eq_piece_of_isPiece h
          simp only [rename_piece, refers_piece_iff, exists_eq_left]
          exact eq_comm
      | false =>
          rw [refers_iff_of_not_piece ((isPiece_rename ρ n).trans h), children_rename h]
          simp only [List.mem_map, exists_exists_and_eq_and, refers_iff_of_not_piece h]
          constructor
          · rintro ⟨c, mem, refers⟩
            obtain ⟨old, refers, same⟩ := (ih c mem).1 refers
            exact ⟨old, ⟨c, mem, refers⟩, same⟩
          · rintro ⟨old, ⟨c, mem, refers⟩, same⟩
            exact ⟨c, mem, (ih c mem).2 ⟨old, refers, same⟩⟩

end Node

end MonkeyLang
