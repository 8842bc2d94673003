import MonkeyLang.Proofs.Quotation.Enclosed

/-!
# Trees without unquotations

A tree is calm if there is no call of `unquote` in it, also not in its pieces; and where nothing may
overflow, no function. A quotation leaves a calm tree as it is.

* `Calm.setting` is the setting in which only calm trees stand in quotations.
* `Calm.idle` says that a calm tree is visited without any effect.
-/

namespace MonkeyLang

/-- The node is no call of `unquote`; and if `total` holds, it makes no function. -/
structure Node.Calm (total : Prop) (n : Node) : Prop where
  other : n.unquotes? = none
  isFunction : total → n.isFunction = false

/-- If `total` holds, the node makes no function. -/
def Node.Grounded (total : Prop) (n : Node) : Prop := total → n.isFunction = false

theorem Node.Calm.withChildren {total : Prop} {n : Node} (h : n.Calm total) {ns : List Node}
    (heads : List.Forall₂ Heads n.children ns) : (n.withChildren ns).Calm total where
  other := unquotes?_withChildren h.other heads
  isFunction isTotal := by rw [isFunction_withChildren, h.isFunction isTotal]

theorem Node.Calm.of_leaf {total : Prop} {n : Node} (h : n.isCompound = false) : n.Calm total := by
  cases n <;> first | exact ⟨rfl, fun _ => rfl⟩ | cases h

/-- A setting in which all quoted trees are calm. -/
structure Calm where
  known : ScopeId → Prop
  /-- How many scopes there were at first. -/
  start : Nat
  /-- The pieces that there were at first. -/
  base : Pieces
  /-- There are no functions, and nothing overflows. -/
  total : Prop

namespace Calm

variable {C : Calm} {p p' : Pieces} {n : Node} {id : PieceId}

/-- The tree has an end, and all its nodes are calm. -/
abbrev Tree (C : Calm) (p : Pieces) (n : Node) : Prop := p.Tree (Node.Calm C.total) n

/-- The pieces are there that were there at first. Where there are functions, all pieces are solid,
so that the bodies of functions can be quoted. -/
structure Holds (C : Calm) (p : Pieces) : Prop where
  old : C.base.Extends p
  solid : ¬ C.total → p.Solid

/-- Quotations hold none but calm trees, and no piece is changed. -/
def setting (C : Calm) : Eval.Setting where
  known := C.known
  start := C.start
  total := C.total
  pieces := C.Holds
  moves := Pieces.Extends
  quoted := C.Tree
  parameter p n := ∀ id, n.Refers id → id < p.nextId
  code p n := ¬ C.total ∧ ∀ id, n.Refers id → id < p.nextId
  held _ n := C.total ∧ C.base.Tree (fun _ => True) n
  refl := .refl
  trans h₁ h₂ := ⟨Nat.le_trans h₁.nextId_le h₂.nextId_le, fun id inside =>
    (h₂.get_eq id (Nat.lt_of_lt_of_le inside h₁.nextId_le)).trans (h₁.get_eq id inside)⟩
  quoted_moves moves h := h.of_extends moves
  parameter_moves moves h id refers := Nat.lt_of_lt_of_le (h id refers) moves.nextId_le
  code_moves moves h := ⟨h.1, fun id refers => Nat.lt_of_lt_of_le (h.2 id refers) moves.nextId_le⟩
  held_moves _ h := h
  code_total total h := h.1 total
  quoted_text _ h := h.exists_text
  held_text _ holds h := (h.2.of_extends holds.old).exists_text

theorem extends_add (p : Pieces) (n : Node) : p.Extends (p.add n) where
  nextId_le := by
    rw [Pieces.nextId_add]
    exact Nat.le_succ _
  get_eq id inside := by rw [Pieces.get_add, if_neg inside.ne]

theorem quotable (C : Calm) : C.setting.Quotable where
  leaf {p n} compound other := by
    refine .node other (.of_leaf compound) ?_
    rw [Node.children_of_not_isCompound compound]
    exact nofun
  child other h mem := (h.of_not_piece other).2 _ mem
  rebuild {p n ns} other h heads quoted := by
    refine .node (by rw [Node.isPiece_withChildren, other])
      ((h.of_not_piece other).1.withChildren heads) ?_
    rwa [Node.children_withChildren heads.length_eq.symm]
  add {p n} holds compound h := by
    have more := extends_add p n
    have here : (p.add n).get p.nextId = n := by rw [Pieces.get_add, if_pos rfl]
    refine ⟨⟨C.setting.trans holds.old more, fun partial_ => ?_⟩, more, .piece ?_ ?_⟩
    · exact (holds.solid partial_).add compound fun id refers => (h.refers refers).inside
    · rwa [here]
    · rw [here]
      exact h.of_extends more

/-! ## Visits without effect -/

/-- The depth grows beyond all bounds; or there is only one, and it need not be enough. -/
def Deep (C : Calm) (F : Filter Nat) (depth : Nat → Nat) : Prop :=
  Filter.Tendsto depth F Filter.atTop ∨ ¬ C.total ∧ ∃ k, F = pure k

theorem Deep.pred {F : Filter Nat} {depth : Nat → Nat} (h : C.Deep F depth) :
    C.Deep F fun i => depth i - 1 :=
  h.imp_left fun grows => (Filter.tendsto_sub_atTop_nat 1).comp grows

/-- With a depth that grows, there is room for one piece more in the end. -/
theorem Deep.cases {F : Filter Nat} {depth : Nat → Nat} (h : C.Deep F depth) :
    (∀ᶠ i in F, depth i = depth i - 1 + 1) ∨ ¬ C.total ∧ ∀ᶠ i in F, depth i = 0 := by
  rcases h with grows | ⟨partial_, k, rfl⟩
  · exact .inl ((grows.eventually_ge_atTop 1).mono fun i enough => (Nat.sub_add_cancel enough).symm)
  · rcases Nat.eq_zero_or_pos (depth k) with none | some
    · exact .inr ⟨partial_, Filter.eventually_pure.2 none⟩
    · exact .inl (Filter.eventually_pure.2 (Nat.sub_add_cancel some).symm)

variable {evaluate : Node → Eval Value} {m : Machine}

theorem set_get (p : Pieces) (id : PieceId) : p.set id (p.get id) = p := by
  obtain ⟨contents⟩ := p
  simp only [Pieces.set, Pieces.get, Pieces.mk.injEq]
  refine Array.ext (Array.size_setIfInBounds ..) fun i _ inside => ?_
  rw [Array.getElem_setIfInBounds inside]
  split
  · next same =>
      subst same
      rw [Array.getD_eq_getD_getElem?, Array.getElem?_eq_getElem inside]
      rfl
  · rfl

/-- The visit of the node has no effect, unless too many pieces stand inside each other. -/
def IsIdle (evaluate : Node → Eval Value) (d : Nat) (m : Machine) (n : Node) : Prop :=
  (n.transformM (Quote.unquote evaluate d)).run m = .ok n m ∨
    (n.transformM (Quote.unquote evaluate d)).run m = .error (.halted .overflow) m ∧
      ∃ id, n.Refers id ∧ d ≤ (Pieces.Tree.inner m.pieces id).card

theorem isIdle_mapM {d : Nat} {nodes : List Node} (each : ∀ n ∈ nodes, IsIdle evaluate d m n) :
    (nodes.mapM (Node.transformM (Quote.unquote evaluate d))).run m = .ok nodes m ∨
      (nodes.mapM (Node.transformM (Quote.unquote evaluate d))).run m =
          .error (.halted .overflow) m ∧
        ∃ n ∈ nodes, ∃ id, n.Refers id ∧ d ≤ (Pieces.Tree.inner m.pieces id).card := by
  induction nodes with
  | nil => exact .inl rfl
  | cons n nodes ih =>
      rw [List.mapM_cons]
      rcases each n (.head _) with ran | ⟨halts, id, refers, deep⟩
      · rw [run_bind_of_ok ran]
        rcases ih fun n mem => each n (.tail _ mem) with ran' | ⟨halts, n', mem, deep⟩
        · rw [run_bind_of_ok ran']
          exact .inl rfl
        · rw [run_bind_of_exit halts]
          exact .inr ⟨rfl, n', .tail _ mem, deep⟩
      · rw [run_bind_of_exit halts]
        exact .inr ⟨rfl, n, .head _, id, refers, deep⟩

/-- A calm tree is visited without any effect, and so are its children. -/
theorem isIdle (h : C.Tree m.pieces n) (d : Nat) :
    IsIdle evaluate d m n ∧ ∀ c ∈ n.children, IsIdle evaluate d m c := by
  -- Inside a piece one piece less may stand inside another, and there is one less.
  induction h generalizing d with
  | @node n other calm _ ih =>
      have children (c : Node) (mem : c ∈ n.children) := (ih c mem d).1
      refine ⟨?_, children⟩
      rw [IsIdle, Node.transformM_eq]
      rcases isIdle_mapM children with ran | ⟨halts, c, mem, id, refers, deep⟩
      · rw [run_bind_of_ok ran, Node.withChildren_children, Eval.Setting.giveM_unquote other,
          Quote.substitute?_of_none _ calm.other]
        exact .inl rfl
      · rw [run_bind_of_exit halts]
        exact .inr ⟨rfl, id, .child mem refers, deep⟩
  | @piece id compound tree ih =>
      refine ⟨?_, nofun⟩
      have here : C.Tree m.pieces (.piece id) := .piece compound tree
      cases d with
      | zero => exact .inr ⟨rfl, id, .piece, Nat.zero_le _⟩
      | succ d =>
          rw [IsIdle, Quote.transformM_unquote_piece, Node.belowM_eq, ← bind_pure_comp, bind_assoc]
          rcases isIdle_mapM (ih d).2 with ran | ⟨halts, c, mem, inner, refers, deep⟩
          · have kept : (Eval.setPiece id (m.pieces.get id)).run m = .ok () m :=
              congrArg (fun p => EStateM.Result.ok () ({ m with pieces := p } : Machine))
                (set_get m.pieces id)
            rw [run_bind_of_ok ran, pure_bind, Node.withChildren_children, run_bind_of_ok kept,
              Quote.substitute?_of_none _ here.content.1.other]
            exact .inl rfl
          · rw [run_bind_of_exit halts]
            refine .inr ⟨rfl, id, .piece, ?_⟩
            exact Nat.lt_of_le_of_lt deep (here.card_inner_lt (.child mem refers))

/-- So it is in every setting in which an overflow is as good as here. -/
theorem idle {S : Eval.Setting} (total : S.total → C.total) {F : Filter Nat} {depth : Nat → Nat}
    {run : Nat → Node → Eval Value} (deep : C.Deep F depth) (h : C.Tree m.pieces n) :
    S.Runs F m (fun i => n.transformM (Quote.unquote (run i) (depth i))) fun m' n' =>
      m' = m ∧ n' = n := by
  intro sound
  rcases deep with grows | ⟨partial_, k, rfl⟩
  · refine ⟨.ok n m, ⟨.refl, sound, rfl, rfl⟩, ?_⟩
    refine (grows.eventually_gt_atTop m.pieces.nextId).mono fun i enough => ?_
    have idle : IsIdle (run i) (depth i) m n := (isIdle h (depth i)).1
    refine idle.resolve_right ?_
    rintro ⟨-, id, refers, deeper⟩
    have few := (h.refers refers).card_inner_lt_nextId
    omega
  · refine Settles.pure_iff.2 ?_
    have idle : IsIdle (run k) (depth k) m n := (isIdle h (depth k)).1
    rcases idle with ran | ⟨halts, -⟩
    · rw [ran]
      exact ⟨.refl, sound, rfl, rfl⟩
    · rw [halts]
      exact ⟨.refl, sound, fun isTotal => absurd (total isTotal) partial_⟩

end Calm

end MonkeyLang
