import MonkeyLang.Proofs.Quotation.Copies
import MonkeyLang.Proofs.Quotation.Rewriting

/-!
# Trees with an end

A tree that refers to pieces has an end if no piece stands inside itself. Then it can be put
together to one tree without pieces.

* `Pieces.Tree` says that a tree has an end, and that something holds of all its nodes.
* `Pieces.Tree.exists_whole` puts such a tree together.
-/

namespace MonkeyLang

namespace Node

/-- Something holds of all nodes of the tree. -/
inductive Everywhere (ok : Node → Prop) : Node → Prop
  | mk {n : Node} : ok n → (∀ c ∈ n.children, Everywhere ok c) → Everywhere ok n

/-- Does the node make a function? -/
def isFunction : Node → Bool
  | fnLit _ _ _ => true
  | _ => false

/-- An identifier in the place of a node is that node. -/
def Heads (old new : Node) : Prop := ∀ t name, new = .ident t name → old = .ident t name

theorem Heads.refl (n : Node) : Heads n n := fun _ _ same => same

theorem Heads.of_isCompound {old new : Node} (h : new.isCompound = true) : Heads old new := by
  rintro t name rfl
  cases h

theorem isFunction_withChildren (n : Node) (ns : List Node) :
    (n.withChildren ns).isFunction = n.isFunction := by
  unfold withChildren
  split <;> rfl

theorem heads_withChildren (n : Node) (ns : List Node) : n.Heads (n.withChildren ns) := by
  intro t name same
  unfold withChildren at same
  split at same <;> first | exact same | cases same

/-- A node whose callee is no other identifier than before calls `unquote` only if it did before. -/
theorem unquotes?_withChildren {n : Node} {ns : List Node} (other : n.unquotes? = none)
    (heads : List.Forall₂ Heads n.children ns) : (n.withChildren ns).unquotes? = none := by
  cases n with
  | call t callee arguments =>
      cases heads with
      | @cons _ callee' _ arguments' head heads =>
          cases callee' with
          | ident u name =>
              rw [head u name rfl] at other
              simpa [withChildren, unquotes?] using other
          | _ => rfl
  | _ =>
      unfold withChildren
      split <;> first | rfl | simp_all

end Node

namespace Pieces

/-- The tree has an end, and `ok` holds of all its nodes, also of those in pieces. Nothing is kept
as a piece that no node can stand below. -/
inductive Tree (p : Pieces) (ok : Node → Prop) : Node → Prop
  | node {n : Node} : n.isPiece = false → ok n → (∀ c ∈ n.children, Tree p ok c) → Tree p ok n
  | piece {id : PieceId} : (p.get id).isCompound = true → Tree p ok (p.get id) →
    Tree p ok (.piece id)

theorem lt_nextId_of_isCompound {p : Pieces} {id : PieceId}
    (h : (p.get id).isCompound = true) : id < p.nextId := by
  refine Nat.lt_of_not_le fun outside => ?_
  have none : p.get id = .missing := by
    rw [get, Array.getD_eq_getD_getElem?, Array.getElem?_eq_none outside]
    rfl
  rw [none] at h
  cases h

theorem isPiece_of_isCompound {n : Node} (h : n.isCompound = true) : n.isPiece = false := by
  cases n with
  | piece id => cases h
  | _ => rfl

namespace Tree

variable {p p' : Pieces} {ok ok' : Node → Prop} {n : Node} {id : PieceId}

theorem piece_iff :
    p.Tree ok (.piece id) ↔ (p.get id).isCompound = true ∧ p.Tree ok (p.get id) := by
  constructor
  · intro h
    cases h with
    | node other => cases other
    | piece compound content => exact ⟨compound, content⟩
  · exact fun ⟨compound, content⟩ => .piece compound content

theorem of_not_piece (h : p.Tree ok n) (other : n.isPiece = false) :
    ok n ∧ ∀ c ∈ n.children, p.Tree ok c := by
  cases h with
  | node _ holds children => exact ⟨holds, children⟩
  | piece => cases other

theorem content (h : p.Tree ok (.piece id)) :
    ok (p.get id) ∧ ∀ c ∈ (p.get id).children, p.Tree ok c :=
  (piece_iff.1 h).2.of_not_piece (isPiece_of_isCompound (piece_iff.1 h).1)

theorem inside (h : p.Tree ok (.piece id)) : id < p.nextId :=
  lt_nextId_of_isCompound (piece_iff.1 h).1

theorem mono (h : p.Tree ok n) (weaker : ∀ n, ok n → ok' n) : p.Tree ok' n := by
  induction h with
  | node other holds _ ih => exact .node other (weaker _ holds) ih
  | piece compound _ ih => exact .piece compound ih

theorem refers (h : p.Tree ok n) (refers : n.Refers id) : p.Tree ok (.piece id) := by
  induction refers with
  | piece => exact h
  | child mem _ ih =>
      cases h with
      | node _ _ children => exact ih (children _ mem)
      | piece => cases mem

/-- The pieces of trees with an end are sealed. -/
theorem isSealed (p : Pieces) (ok : Node → Prop) : p.Sealed fun id => p.Tree ok (.piece id) where
  inside _ h := h.inside
  content _ h := isPiece_of_isCompound (piece_iff.1 h).1
  refers _ h _ refers := (piece_iff.1 h).2.refers refers

/-- The tree stays what it is as long as its pieces do. -/
theorem of_same (h : p.Tree ok n)
    (same : ∀ id, p.Tree ok (.piece id) → p'.get id = p.get id) : p'.Tree ok n := by
  induction h with
  | node other holds _ ih => exact .node other holds ih
  | piece compound content ih =>
      have same := same _ (.piece compound content)
      exact .piece (same ▸ compound) (same ▸ ih)

theorem of_extends (h : p.Tree ok n) (extends_ : p.Extends p') : p'.Tree ok n :=
  h.of_same fun _ tree => extends_.get_eq _ tree.inside

/-! ## Putting together -/

/-- The piece `id` stands in the piece `around`. -/
def Below (p : Pieces) (id around : PieceId) : Prop := (p.get around).Refers id

theorem acc_below (h : p.Tree ok (.piece id)) : Acc (Below p) id := by
  suffices general : ∀ n, p.Tree ok n → ∀ id, n.Refers id → Acc (Below p) id from
    general _ h id .piece
  intro n h
  induction h with
  | node other _ _ ih =>
      intro id refers
      obtain ⟨c, mem, refers⟩ := (Node.refers_iff_of_not_piece other).1 refers
      exact ih c mem id refers
  | piece _ _ ih =>
      intro id refers
      rw [Node.refers_piece_iff.1 refers]
      exact .intro _ ih

theorem not_below_self (h : p.Tree ok (.piece id)) : ¬ Relation.TransGen (Below p) id id := by
  have acc := h.acc_below.transGen
  clear h
  induction acc with
  | intro id _ ih => exact fun cycle => ih id cycle cycle

section

open Classical

/-- All pieces inside a piece. -/
noncomputable def inner (p : Pieces) (id : PieceId) : Finset PieceId :=
  (Finset.range p.nextId).filter fun other => Relation.TransGen (Below p) other id

/-- There are fewer pieces inside a piece than inside one that it stands in. -/
theorem card_inner_lt {around : PieceId} (h : p.Tree ok (.piece around))
    (below : Below p id around) : (inner p id).card < (inner p around).card := by
  have here : p.Tree ok (.piece id) := (piece_iff.1 h).2.refers below
  refine Finset.card_lt_card ⟨fun other mem => ?_, fun back => ?_⟩
  · rw [inner, Finset.mem_filter] at mem ⊢
    exact ⟨mem.1, mem.2.tail below⟩
  · have mem : id ∈ inner p around :=
      Finset.mem_filter.2 ⟨Finset.mem_range.2 here.inside, .single below⟩
    exact here.not_below_self (Finset.mem_filter.1 (back mem)).2

theorem card_inner_lt_nextId (h : p.Tree ok (.piece id)) : (inner p id).card < p.nextId := by
  have fewer : (inner p id).card < (Finset.range p.nextId).card := by
    refine Finset.card_lt_card ⟨Finset.filter_subset _ _, fun back => ?_⟩
    exact h.not_below_self (Finset.mem_filter.1 (back (Finset.mem_range.2 h.inside))).2
  rwa [Finset.card_range] at fewer

end

/-- The children of a node put together, each of which is a compound node or what the child was. -/
theorem exists_mapM {f : Node → Option Node} {nodes : List Node}
    (each : ∀ n ∈ nodes, ∃ whole, f n = some whole ∧ whole.Everywhere ok ∧ n.Heads whole) :
    ∃ wholes, nodes.mapM f = some wholes ∧ (∀ w ∈ wholes, w.Everywhere ok) ∧
      List.Forall₂ Node.Heads nodes wholes := by
  induction nodes with
  | nil => exact ⟨[], rfl, nofun, .nil⟩
  | cons n nodes ih =>
      obtain ⟨whole, eq, holds, heads⟩ := each n (.head _)
      obtain ⟨wholes, eqs, all, headsAll⟩ := ih fun n mem => each n (.tail _ mem)
      refine ⟨whole :: wholes, ?_, List.forall_mem_cons.2 ⟨holds, all⟩, .cons heads headsAll⟩
      rw [List.mapM_cons, eq, eqs]
      rfl

theorem giveM_fillPlace? {d : Nat} (other : n.isPiece = false) :
    Node.giveM (p.fillPlace? d) n = some n := by
  cases n with
  | piece => cases other
  | missing => rfl
  | _ => cases d <;> rfl

/-- What holds of a node with its children as pieces and with the pieces in their places. -/
def Lasting (ok : Node → Prop) : Prop :=
  ∀ n ns, n.isPiece = false → ok n → List.Forall₂ Node.Heads n.children ns →
    ok (n.withChildren ns)

/-- A tree with an end is put together if enough pieces may stand inside each other. -/
theorem exists_transformM (lasting : Lasting ok) {d : Nat} (h : p.Tree ok n)
    (enough : ∀ id, n.Refers id → (inner p id).card < d) :
    ∃ whole, n.transformM (p.fillPlace? d) = some whole ∧ whole.Everywhere ok ∧
      n.Heads whole ∧ whole.isCompound = (n.isCompound || n.isPiece) := by
  induction h generalizing d with
  | @node n other holds _ ih =>
      obtain ⟨wholes, eqs, all, heads⟩ := exists_mapM fun c mem => by
        obtain ⟨whole, eq, holds, heads, -⟩ := ih c mem fun id refers => enough id (.child mem refers)
        exact ⟨whole, eq, holds, heads⟩
      have other' : (n.withChildren wholes).isPiece = false := by
        rw [Node.isPiece_withChildren, other]
      refine ⟨n.withChildren wholes, ?_, .mk (lasting n wholes other holds heads) ?_, ?_, ?_⟩
      · rw [Node.transformM_eq, eqs]
        exact giveM_fillPlace? other'
      · rwa [Node.children_withChildren heads.length_eq.symm]
      · exact n.heads_withChildren wholes
      · rw [Node.isCompound_withChildren, other, Bool.or_false]
  | @piece id compound tree ih =>
      cases d with
      | zero => exact absurd (enough id .piece) (Nat.not_lt_zero _)
      | succ d =>
        obtain ⟨whole, eq, holds, -, isCompound⟩ := ih (d := d) fun other refers =>
          Nat.lt_of_lt_of_le (card_inner_lt (.piece compound tree) refers)
            (Nat.le_of_lt_succ (enough id .piece))
        rw [compound, Bool.true_or] at isCompound
        refine ⟨whole, ?_, holds, .of_isCompound isCompound, isCompound⟩
        have place : (Node.piece id).transformM (p.fillPlace? (d + 1)) =
            (p.get id).belowM (p.fillPlace? d) := rfl
        rw [place, Node.belowM_eq]
        rw [Node.transformM_eq] at eq
        obtain ⟨wholes, eqs, given⟩ := Option.bind_eq_some_iff.1 eq
        have other : ((p.get id).withChildren wholes).isPiece = false := by
          rw [Node.isPiece_withChildren, isPiece_of_isCompound compound]
        rw [giveM_fillPlace? other] at given
        rw [eqs]
        exact given

/-- A tree with an end can be put together. -/
theorem exists_whole (lasting : Lasting ok) (h : p.Tree ok n) :
    ∃ whole, p.whole? n = some whole ∧ whole.Everywhere ok := by
  obtain ⟨whole, eq, holds, -⟩ := exists_transformM lasting h
    fun _ refers => (h.refers refers).card_inner_lt_nextId
  exact ⟨whole, eq, holds⟩

/-- No place of a piece is one of the nodes. -/
theorem other (h : p.Tree ok n) : p.Tree (fun n => n.isPiece = false ∧ ok n) n := by
  induction h with
  | node other holds _ ih => exact .node other ⟨other, holds⟩ ih
  | piece compound _ ih => exact .piece compound ih

/-- A tree with an end has a text. -/
theorem exists_text (h : p.Tree ok n) : ∃ text, p.text? n = some text := by
  have tree : p.Tree (fun _ => True) n := h.mono fun _ _ => trivial
  obtain ⟨whole, eq, -⟩ := tree.exists_whole fun _ _ _ _ _ => trivial
  exact ⟨whole.render, by rw [text?, eq]; rfl⟩

end Tree

end Pieces

end MonkeyLang
