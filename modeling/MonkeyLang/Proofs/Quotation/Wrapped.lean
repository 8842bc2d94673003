import MonkeyLang.Proofs.Quotation.Unfolding
import MonkeyLang.Proofs.Quotation.Rewriting

/-!
# A quotation is made of a tree

When a quotation is made of a tree, the bodies of the functions in it are kept as pieces, and so is
the whole. With these pieces in their places the quotation is the tree it was made of.

* `Quote.Wraps` says so of a computation.
* `Quote.run_newQuote` is the result.
-/

namespace MonkeyLang

namespace Pieces.Shows

variable {p p' : Pieces} {own own' : PieceId → Prop} {nodes ws : List Node} {n w : Node}

theorem append {nodes' ws' : List Node} (first : p.Shows own nodes ws)
    (later : p.Shows own nodes' ws') : p.Shows own (nodes ++ nodes') (ws ++ ws') := by
  induction first with
  | nil => exact later
  | node other below _ _ ih => exact .node other below ih
  | piece isOwn compound below _ _ ih => exact .piece isOwn compound below ih
  | other notOwn _ ih => exact .other notOwn ih

theorem of_append {nodes' trees : List Node} (h : p.Shows own (nodes ++ nodes') trees) :
    ∃ ws ws', trees = ws ++ ws' ∧ p.Shows own nodes ws ∧ p.Shows own nodes' ws' := by
  induction nodes generalizing trees with
  | nil => exact ⟨[], trees, rfl, .nil, h⟩
  | cons n nodes ih =>
      cases trees with
      | nil => cases h.length_eq
      | cons w trees =>
          obtain ⟨first, later⟩ := cons_iff.1 h
          obtain ⟨ws, ws', rfl, shown, shown'⟩ := ih later
          exact ⟨w :: ws, ws', rfl, cons_iff.2 ⟨first, shown⟩, shown'⟩

theorem of_extends (h : p.Shows own nodes ws) (more : p.Extends p') : p'.Shows own nodes ws := by
  induction h with
  | nil => exact .nil
  | node other _ _ ihBelow ihLater => exact .node other ihBelow ihLater
  | piece isOwn compound _ _ ihBelow ihLater =>
      have same := more.get_eq _ (lt_nextId_of_isCompound compound)
      rw [← same] at compound ihBelow ⊢
      exact .piece isOwn compound ihBelow ihLater
  | other notOwn _ ih => exact .other notOwn ih

/-- Pieces that are not there may be own ones. -/
theorem widen (h : p.Shows own nodes ws) (solid : p.Solid)
    (refers : ∀ n ∈ nodes, ∀ id, n.Refers id → id < p.nextId) :
    p.Shows (fun id => own id ∨ p.nextId ≤ id) nodes ws := by
  induction h with
  | nil => exact .nil
  | node other _ _ ihBelow ihLater =>
      obtain ⟨here, later⟩ := List.forall_mem_cons.1 refers
      exact .node other (ihBelow fun c mem id inside => here id (.child mem inside)) (ihLater later)
  | piece isOwn compound _ _ ihBelow ihLater =>
      have inside := (solid _ (lt_nextId_of_isCompound compound)).2
      exact .piece (.inl isOwn) compound (ihBelow fun c mem id refers => inside id (.child mem refers))
        (ihLater (List.forall_mem_cons.1 refers).2)
  | other notOwn _ ih =>
      obtain ⟨here, later⟩ := List.forall_mem_cons.1 refers
      exact .other (fun either => either.elim notOwn (Nat.not_le_of_lt (here _ .piece))) (ih later)

/-- A piece is shown as its content. -/
theorem place {id : PieceId} (h : p.Shows own [p.get id] [w]) (isOwn : own id)
    (compound : (p.get id).isCompound = true) : p.Shows own [.piece id] [w] := by
  have other := isPiece_of_isCompound compound
  generalize same : p.get id = content at h other
  cases h with
  | node _ below none =>
      subst same
      cases none
      exact .piece isOwn compound below .nil
  | piece => cases other
  | other => cases other

end Pieces.Shows

namespace Quote

/-- The computation makes a node of the tree `w` with the pieces in their places, and changes nothing
but that there may be more pieces. -/
def Wraps (own : PieceId → Prop) (c : Eval Node) (m : Machine) (w : Node) : Prop :=
  ∃ n p, c.run m = .ok n { m with pieces := p } ∧ m.pieces.Extends p ∧ p.Shows own [n] [w]

variable {own : PieceId → Prop} {m : Machine} {n w : Node}

theorem wraps_keep (later : own m.pieces.nextId) (h : m.pieces.Shows own [n] [w]) :
    Wraps own (Eval.keep n) m w := by
  cases compound : n.isCompound with
  | false => exact ⟨n, m.pieces, by rw [Eval.keep, compound]; rfl, .refl, h⟩
  | true =>
      have more := Calm.extends_add m.pieces n
      have here : (m.pieces.add n).get m.pieces.nextId = n := by rw [Pieces.get_add, if_pos rfl]
      refine ⟨.piece m.pieces.nextId, m.pieces.add n, by rw [Eval.keep, compound]; rfl, more, ?_⟩
      refine .place ?_ later (by rw [here, compound])
      rw [here]
      exact h.of_extends more

theorem wraps_keepBody (later : own m.pieces.nextId) (h : m.pieces.Shows own [n] [w]) :
    Wraps own (Eval.keepBody n) m w := by
  cases n with
  | fnLit t parameters body =>
      cases h with
      | node _ below none =>
          cases none
          obtain ⟨ws, ws', rfl, shown, shownBody⟩ := below.of_append
          obtain ⟨w, rfl⟩ := List.length_eq_one_iff.1 shownBody.length_eq
          obtain ⟨body', p, ran, more, shownBody'⟩ := wraps_keep later shownBody
          refine ⟨.fnLit t parameters body', p, run_bind_of_ok ran, more, ?_⟩
          have all := ((shown.of_extends more).append shownBody').rebuild
            (n := .fnLit t parameters body) rfl (by simp [Node.children])
          rwa [Node.withChildren_fnLit] at all
  | _ => exact ⟨_, m.pieces, rfl, .refl, h⟩

theorem giveM_keepBody (n : Node) : Node.giveM Eval.keepBody n = Eval.keepBody n := by
  cases n <;> rfl

variable {start : Nat}

theorem wraps_mapM {f : Node → Eval Node} {nodes ws : List Node}
    (each : ∀ n ∈ nodes, ∀ m w, start ≤ m.pieces.nextId → m.pieces.Shows own [n] [w] →
      Wraps own (f n) m w)
    (inside : start ≤ m.pieces.nextId) (h : m.pieces.Shows own nodes ws) :
    ∃ ns p, (nodes.mapM f).run m = .ok ns { m with pieces := p } ∧ m.pieces.Extends p ∧
      p.Shows own ns ws := by
  induction nodes generalizing m ws with
  | nil =>
      cases h
      exact ⟨[], m.pieces, rfl, .refl, .nil⟩
  | cons n nodes ih =>
      cases ws with
      | nil => cases h.length_eq
      | cons w ws =>
          obtain ⟨first, others⟩ := Pieces.Shows.cons_iff.1 h
          obtain ⟨n', p, ran, more, shown⟩ := each n (.head _) m w inside first
          obtain ⟨ns, p', ran', more', shown'⟩ := ih (m := { m with pieces := p })
            (fun n mem => each n (.tail _ mem)) (Nat.le_trans inside more.nextId_le)
            (others.of_extends more)
          refine ⟨n' :: ns, p', ?_, more.trans more', Pieces.Shows.cons_iff.2
            ⟨shown.of_extends more', shown'⟩⟩
          rw [List.mapM_cons, run_bind_of_ok ran, run_bind_of_ok ran']
          rfl

variable (later : ∀ id ≥ start, own id)
include later

theorem wraps_keepBodies (n : Node) (inside : start ≤ m.pieces.nextId)
    (h : m.pieces.Shows own [n] [w]) : Wraps own (n.transformM Eval.keepBody) m w := by
  induction n using Node.childInduction generalizing m w with
  | step n ih =>
      rw [Node.transformM_eq]
      cases isPiece : n.isPiece with
      | true =>
          obtain ⟨id, rfl⟩ := Node.eq_piece_of_isPiece isPiece
          exact ⟨_, m.pieces, rfl, .refl, h⟩
      | false =>
          cases h with
          | node _ below none =>
              cases none
              obtain ⟨ns, p, ran, more, shown⟩ := wraps_mapM
                (fun c mem m w inside shown => ih c mem inside shown) inside below
              have length_eq := shown.length_eq.symm.trans below.length_eq
              have whole := shown.rebuild isPiece length_eq
              obtain ⟨n', p', ran', more', shown'⟩ := wraps_keepBody (m := { m with pieces := p })
                (later _ (Nat.le_trans inside more.nextId_le)) whole
              refine ⟨n', p', ?_, more.trans more', shown'⟩
              rw [run_bind_of_ok ran, giveM_keepBody]
              exact ran'
          | piece => cases isPiece
          | other => cases isPiece

/-- A quotation that is made of a tree quotes it, and changes nothing but that there may be more
pieces and one more serial number is used. -/
theorem run_newQuote (inside : start ≤ m.pieces.nextId) (h : m.pieces.Shows own [n] [w]) :
    ∃ node p, (Eval.newQuote n).run m =
        .ok (.quote m.nextSerial node) { m with pieces := p, nextSerial := m.nextSerial + 1 } ∧
      m.pieces.Extends p ∧ p.Shows own [node] [w] := by
  obtain ⟨n₁, p₁, ran₁, more₁, shown₁⟩ := wraps_keepBodies later n inside h
  obtain ⟨n₂, p₂, ran₂, more₂, shown₂⟩ := wraps_keep (m := { m with pieces := p₁ })
    (later _ (Nat.le_trans inside more₁.nextId_le)) shown₁
  refine ⟨n₂, p₂, ?_, more₁.trans more₂, shown₂⟩
  rw [Eval.newQuote, run_bind_of_ok ran₁, run_bind_of_ok ran₂]
  rfl

end Quote

end MonkeyLang
