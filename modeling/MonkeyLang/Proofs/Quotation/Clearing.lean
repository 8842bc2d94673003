import MonkeyLang.Proofs.Quotation.Calm

/-!
# Clearing a copy of its unquotations

A quotation copies a tree, and visits the nodes of the copy. When all below a node has been visited,
it is calm. A piece of the copy is either as it was copied, or all below it is calm: so if it has not
become a call of `unquote` itself, it is calm from then on. What is calm stays as it is, and a call of
`unquote` that has been kept as a piece stays one.

* `Clearing.Holds` is the invariant of all pieces while the copy is visited.
* `Clearing.setting` is the setting of the visits, in which certain pieces of the copy do not change.
* `Clearing.visits` says that the visit of a tree with an end makes it calm.
-/

namespace MonkeyLang

namespace Pieces

/-- The piece stands in the tree, perhaps inside other pieces. -/
def Stands (p : Pieces) (n : Node) (id : PieceId) : Prop :=
  ∃ around, n.Refers around ∧ Relation.ReflTransGen (Tree.Below p) id around

theorem Stands.child {p : Pieces} {n c : Node} {id : PieceId} (mem : c ∈ n.children)
    (h : p.Stands c id) : p.Stands n id := by
  obtain ⟨around, refers, below⟩ := h
  exact ⟨around, .child mem refers, below⟩

theorem Stands.inside {p : Pieces} {c : Node} {id around : PieceId}
    (mem : c ∈ (p.get around).children) (h : p.Stands c id) : p.Stands (.piece around) id := by
  obtain ⟨between, refers, below⟩ := h
  have step : Tree.Below p between around := .child mem refers
  exact ⟨around, .piece, below.tail step⟩

/-- A piece of a tree with an end does not stand inside itself. -/
theorem Stands.ne {p : Pieces} {ok : Node → Prop} {c : Node} {id around : PieceId}
    (tree : p.Tree ok (.piece around)) (mem : c ∈ (p.get around).children) (h : p.Stands c id) :
    id ≠ around := by
  rintro rfl
  obtain ⟨between, refers, below⟩ := h
  have step : Pieces.Tree.Below p between id := .child mem refers
  exact tree.not_below_self (Relation.TransGen.tail' below step)

end Pieces

/-- Something in the tree is a call of `unquote`, or a piece that is one. -/
inductive Node.Spoilt (p : Pieces) : Node → Prop
  | here {n : Node} : n.unquotes? ≠ none → Spoilt p n
  | child {n c : Node} : c ∈ n.children → Spoilt p c → Spoilt p n
  | piece {id : PieceId} : (p.get id).unquotes? ≠ none → Spoilt p (.piece id)

theorem Node.Spoilt.not_calm {p : Pieces} {total : Prop} {n : Node} (h : n.Spoilt p) :
    ¬ p.Tree (Node.Calm total) n := by
  induction h with
  | @here n unquotes =>
      intro tree
      cases tree with
      | node _ calm => exact unquotes calm.other
      | piece => exact unquotes rfl
  | child mem _ ih =>
      intro tree
      cases tree with
      | node _ _ children => exact ih (children _ mem)
      | piece => cases mem
  | piece unquotes => exact fun tree => unquotes tree.content.1.other

/-- A copy of some pieces, made in a setting in which quoted trees are calm. -/
structure Clearing (C : Calm) where
  /-- The pieces that there were before. -/
  first : Pieces
  Met : PieceId → Prop
  /-- The copy of a piece. -/
  ρ : PieceId → PieceId
  base : C.base.Extends first
  solid : ¬ C.total → first.Solid
  met_inside : ∀ j, Met j → j < first.nextId
  met_closed : ∀ j, Met j → ∀ other, (first.get j).Refers other → Met other
  new : ∀ j, Met j → first.nextId ≤ ρ j
  injective : ∀ j k, Met j → Met k → ρ j = ρ k → j = k

namespace Clearing

variable {C : Calm} {W : Clearing C} {p p' : Pieces} {n : Node} {id j : PieceId}

/-- All below the piece is calm. -/
structure Done (C : Calm) (p : Pieces) (id : PieceId) : Prop where
  compound : (p.get id).isCompound = true
  grounded : (p.get id).Grounded C.total
  children : ∀ c ∈ (p.get id).children, C.Tree p c

/-- Each piece of the copy is as it was copied, or all below it is calm. The latter is so only if it
has an end. -/
structure Holds (W : Clearing C) (p : Pieces) : Prop where
  calm : C.Holds p
  old : W.first.Extends p
  inside : ∀ j, W.Met j → W.ρ j < p.nextId
  pieces : ∀ j, W.Met j → p.get (W.ρ j) = (W.first.get j).rename W.ρ ∨
    Done C p (W.ρ j) ∧ W.first.Tree (Node.Grounded C.total) (.piece j)

/-- What is calm stays calm, calls of `unquote` that are kept as pieces stay such calls, and certain
pieces of the copy stay as they are. -/
structure Moves (W : Clearing C) (still : PieceId → Prop) (p p' : Pieces) : Prop where
  nextId_le : p.nextId ≤ p'.nextId
  tree : ∀ n, C.Tree p n → C.Tree p' n
  unquotes : ∀ id, (p.get id).unquotes? ≠ none → (p'.get id).unquotes? ≠ none
  same : ∀ j, W.Met j → still j → p'.get (W.ρ j) = p.get (W.ρ j)

theorem Done.of_extends (h : Done C p id) (more : p.Extends p') : Done C p' id := by
  have same := more.get_eq id (Pieces.lt_nextId_of_isCompound h.compound)
  refine ⟨same ▸ h.compound, same ▸ h.grounded, ?_⟩
  rw [same]
  exact fun c mem => (h.children c mem).of_extends more

theorem Holds.of_extends (h : W.Holds p) (more : p.Extends p') (calm : C.Holds p') : W.Holds p' := by
  refine ⟨calm, C.setting.trans h.old more, fun j met => ?_, fun j met => ?_⟩
  · exact Nat.lt_of_lt_of_le (h.inside j met) more.nextId_le
  · rw [more.get_eq _ (h.inside j met)]
    exact (h.pieces j met).imp_right fun done => ⟨done.1.of_extends more, done.2⟩

theorem Moves.of_extends {still : PieceId → Prop} (h : W.Holds p) (more : p.Extends p') :
    W.Moves still p p' where
  nextId_le := more.nextId_le
  tree _ tree := tree.of_extends more
  unquotes id unquotes := by
    have compound : (p.get id).isCompound = true := by
      obtain ⟨arguments, found⟩ := Option.ne_none_iff_exists'.1 unquotes
      obtain ⟨t, u, eq⟩ := Node.eq_call_of_unquotes? found
      rw [eq]
      rfl
    rwa [more.get_eq id (Pieces.lt_nextId_of_isCompound compound)]
  same j met _ := more.get_eq _ (h.inside j met)

theorem Moves.refl {still : PieceId → Prop} : W.Moves still p p :=
  ⟨Nat.le_refl _, fun _ h => h, fun _ h => h, fun _ _ _ => rfl⟩

/-- The setting in which a copy is visited. The copies of the pieces `still` do not change. -/
def setting (W : Clearing C) (still : PieceId → Prop) : Eval.Setting where
  known := C.known
  start := C.start
  total := C.total
  pieces := W.Holds
  moves := W.Moves still
  quoted := C.Tree
  parameter := C.setting.parameter
  code := C.setting.code
  held := C.setting.held
  refl := .refl
  trans h₁ h₂ := ⟨Nat.le_trans h₁.nextId_le h₂.nextId_le, fun n tree => h₂.tree n (h₁.tree n tree),
    fun id unquotes => h₂.unquotes id (h₁.unquotes id unquotes),
    fun j met isStill => (h₂.same j met isStill).trans (h₁.same j met isStill)⟩
  quoted_moves moves h := moves.tree _ h
  parameter_moves moves h id refers := Nat.lt_of_lt_of_le (h id refers) moves.nextId_le
  code_moves moves h := ⟨h.1, fun id refers => Nat.lt_of_lt_of_le (h.2 id refers) moves.nextId_le⟩
  held_moves _ h := h
  code_total := C.setting.code_total
  quoted_text := C.setting.quoted_text
  held_text total holds h := C.setting.held_text total holds.calm h

theorem quotable (W : Clearing C) (still : PieceId → Prop) : (W.setting still).Quotable where
  leaf := C.quotable.leaf
  child := C.quotable.child
  rebuild := C.quotable.rebuild
  add {p n} holds compound quoted := by
    obtain ⟨calm, moves, added⟩ := C.quotable.add holds.calm compound quoted
    exact ⟨holds.of_extends moves calm, .of_extends holds moves, added⟩

variable {F : Filter Nat} {m : Machine} {α : Type} {c : Nat → Eval α}
  {post : Machine → α → Prop} {still still' : PieceId → Prop}

/-- An evaluation leaves the copy alone. -/
theorem lift (h : C.setting.Runs F m c post) : (W.setting still).Runs F m c post :=
  .lift (S := C.setting) (T := W.setting still) (fun _ => rfl) rfl id (fun _ holds => holds.calm)
    (fun _ _ holds moves calm => ⟨.of_extends holds moves, holds.of_extends moves calm⟩) h

theorem lift_still (still' : PieceId → Prop) (fewer : ∀ j, still j → still' j)
    (h : (W.setting still').Runs F m c post) :
    (W.setting still).Runs F m c post :=
  .lift (S := W.setting still') (T := W.setting still) (fun _ => rfl) rfl id (fun _ holds => holds)
    (fun _ _ _ moves holds => ⟨⟨moves.nextId_le, moves.tree, moves.unquotes,
      fun j met isStill => moves.same j met (fewer j isStill)⟩, holds⟩) h

/-! ## Results of visits -/

/-- What comes of a tree is calm. If it is another one, an unquotation has been replaced in it. -/
def Result (C : Calm) (p : Pieces) (n n' : Node) : Prop :=
  C.Tree p n' ∧ (n' = n ∨ n.Spoilt p)

theorem spoilt_moves (moves : W.Moves still p p') (h : n.Spoilt p) : n.Spoilt p' := by
  induction h with
  | here unquotes => exact .here unquotes
  | child mem _ ih => exact .child mem ih
  | piece unquotes => exact .piece (moves.unquotes _ unquotes)

theorem Result.moves {n' : Node} (moves : W.Moves still p p') (h : Result C p n n') :
    Result C p' n n' :=
  ⟨moves.tree _ h.1, h.2.imp_right (spoilt_moves moves)⟩

/-- The children of a node are all as they were, or an unquotation has been replaced in it. -/
theorem eq_or_spoilt {ns : List Node} (related : List.Forall₂ (Result C p) n.children ns) :
    ns = n.children ∨ n.Spoilt p := by
  suffices general : ∀ cs, List.Forall₂ (Result C p) cs ns →
      ns = cs ∨ ∃ c ∈ cs, c.Spoilt p from
    (general _ related).imp_right fun ⟨c, mem, spoilt⟩ => .child mem spoilt
  intro cs related
  clear * - related
  induction related with
  | nil => exact .inl rfl
  | cons result _ ih =>
      rcases result.2 with rfl | spoilt
      · exact ih.imp (congrArg _) fun ⟨c, mem, spoilt⟩ => ⟨c, .tail _ mem, spoilt⟩
      · exact .inr ⟨_, .head _, spoilt⟩

theorem withChildren_or_spoilt {ns : List Node}
    (related : List.Forall₂ (Result C p) n.children ns) :
    n.withChildren ns = n ∨ n.Spoilt p :=
  (eq_or_spoilt related).imp_left fun same => by rw [same, Node.withChildren_children]

/-- A node with calm children that is not to be replaced is calm. -/
theorem tree_withChildren {ns : List Node} (other : n.isPiece = false)
    (grounded : n.Grounded C.total) (related : List.Forall₂ (Result C p) n.children ns)
    (unquotes : (n.withChildren ns).unquotes? = none) : C.Tree p (n.withChildren ns) := by
  refine .node (by rw [Node.isPiece_withChildren, other]) ⟨unquotes, fun isTotal => ?_⟩ ?_
  · rw [Node.isFunction_withChildren, grounded isTotal]
  · rw [Node.children_withChildren related.length_eq.symm]
    exact Eval.Setting.forall_right related fun _ _ result => result.1

/-- What is to be evaluated is calm. -/
theorem tree_argument {ns : List Node} {argument : Node}
    (related : List.Forall₂ (Result C p) n.children ns)
    (unquotes : (n.withChildren ns).unquotes? = some [argument]) : C.Tree p argument := by
  have children := Node.children_withChildren (n := n) related.length_eq.symm
  obtain ⟨t, u, same⟩ := Node.eq_call_of_unquotes? unquotes
  rw [same] at children
  refine Eval.Setting.forall_right related (fun _ _ result => result.1) argument ?_
  rw [← children]
  exact .tail _ (.head _)

end Clearing

end MonkeyLang
