import MonkeyLang.Proofs.Evaluation.Copied
import MonkeyLang.Proofs.Node.Renamed

/-!
# What a copy of a tree is

A copy of a tree is the tree with other numbers of pieces: each piece that is met on the way gets a
copy of its own, once, and the copy of a piece is the piece with the numbers of the copies. All
pieces that there were stay as they were.

While copying goes on, the copies of the pieces in whose midst it is are not finished yet.

* `Quote.Copying` says what the table of copies and the pieces are like meanwhile.
* `Quote.Copied` says what a copy is, and `Quote.run_copy` that `Quote.copy` makes one.
-/

namespace MonkeyLang

/-- No piece is gone, and all are as they were. -/
structure Pieces.Extends (before after : Pieces) : Prop where
  nextId_le : before.nextId ≤ after.nextId
  get_eq : ∀ id < before.nextId, after.get id = before.get id

theorem Pieces.Extends.refl {p : Pieces} : p.Extends p := ⟨Nat.le_refl _, fun _ _ => rfl⟩

theorem Pieces.Extends.trans {p₁ p₂ p₃ : Pieces} (h₁ : p₁.Extends p₂) (h₂ : p₂.Extends p₃) :
    p₁.Extends p₃ where
  nextId_le := Nat.le_trans h₁.nextId_le h₂.nextId_le
  get_eq id inside :=
    (h₂.get_eq id (Nat.lt_of_lt_of_le inside h₁.nextId_le)).trans (h₁.get_eq id inside)

theorem Pieces.nextId_add (p : Pieces) (node : Node) : (p.add node).nextId = p.nextId + 1 := by
  simp [nextId, add]

/-- All pieces in the set are there, are no places of other pieces, and refer to pieces in the set
only. -/
structure Pieces.Sealed (p : Pieces) (R : PieceId → Prop) : Prop where
  inside : ∀ id, R id → id < p.nextId
  content : ∀ id, R id → (p.get id).isPiece = false
  refers : ∀ id, R id → ∀ other, (p.get id).Refers other → R other

namespace Quote

/-- The number of a piece's copy. -/
def look (copies : Copies) (id : PieceId) : PieceId := (copies.get? id).getD id

theorem look_eq {copies : Copies} {id copy : PieceId} (found : copies.get? id = some copy) :
    look copies id = copy := by
  rw [look, found]
  rfl

/-- What has been copied stays copied. -/
def Copies.Le (copies copies' : Copies) : Prop :=
  ∀ id copy, copies.get? id = some copy → copies'.get? id = some copy

theorem Copies.Le.refl {copies : Copies} : Copies.Le copies copies := fun _ _ found => found

theorem Copies.Le.trans {copies₁ copies₂ copies₃ : Copies} (h₁ : Copies.Le copies₁ copies₂)
    (h₂ : Copies.Le copies₂ copies₃) : Copies.Le copies₁ copies₃ :=
  fun id copy found => h₂ id copy (h₁ id copy found)

theorem Copies.le_insert {copies : Copies} {id copy : PieceId} (fresh : copies.get? id = none) :
    Copies.Le copies (copies.insert id copy) := by
  intro other copy' found
  rw [Assoc.get?_insert, if_neg]
  · exact found
  · rintro rfl
    cases fresh.symm.trans found

/-- The pieces that are left to be copied become fewer. -/
theorem Copies.Le.uncopied_subset {copies copies' : Copies} (more : Copies.Le copies copies')
    (n : Nat) : Renumbering.uncopied n copies' ⊆ Renumbering.uncopied n copies := by
  intro id mem
  rw [Renumbering.uncopied, Finset.mem_filter] at mem ⊢
  refine ⟨mem.1, ?_⟩
  cases found : Assoc.get? id copies with
  | none => rfl
  | some copy => cases mem.2.symm.trans (more id copy found)

theorem uncopied_insert_lt {n : Nat} {copies : Copies} {id : PieceId} (copy : PieceId)
    (inside : id < n) (fresh : copies.get? id = none) :
    (Renumbering.uncopied n (copies.insert id copy)).card < (Renumbering.uncopied n copies).card := by
  refine Finset.card_lt_card ⟨(Copies.le_insert fresh).uncopied_subset n, fun back => ?_⟩
  have mem : id ∈ Renumbering.uncopied n copies :=
    Finset.mem_filter.2 ⟨Finset.mem_range.2 inside, fresh⟩
  have again := (Finset.mem_filter.1 (back mem)).2
  rw [Assoc.get?_insert, if_pos rfl] at again
  cases again

/-- All pieces that the tree refers to have been copied. -/
def Covers (copies : Copies) (n : Node) : Prop := ∀ id, n.Refers id → (copies.get? id).isSome

theorem Covers.mono {copies copies' : Copies} {n : Node} (h : Covers copies n)
    (more : Copies.Le copies copies') : Covers copies' n := by
  intro id refers
  obtain ⟨copy, found⟩ := Option.isSome_iff_exists.1 (h id refers)
  rw [more id copy found]
  rfl

/-- The tree that is to be with the numbers of copies stays the same when more has been copied. -/
theorem Covers.rename_eq {copies copies' : Copies} {n : Node} (h : Covers copies n)
    (more : Copies.Le copies copies') : n.rename (look copies') = n.rename (look copies) := by
  refine n.rename_congr fun id refers => ?_
  obtain ⟨copy, found⟩ := Option.isSome_iff_exists.1 (h id refers)
  rw [look_eq found, look_eq (more id copy found)]

/-! ## While copying goes on -/

/-- What the table of copies and the pieces are like while pieces of `R` among the first ones, `p₀`,
are copied. The copies in `open_` are not finished. -/
structure Copying (p₀ : Pieces) (R open_ : PieceId → Prop) (copies : Copies) (p : Pieces) :
    Prop where
  old : p₀.Extends p
  given : ∀ {id copy}, copies.get? id = some copy → R id ∧ p₀.nextId ≤ copy ∧ copy < p.nextId
  injective : ∀ {id id' copy}, copies.get? id = some copy → copies.get? id' = some copy → id = id'
  onto : ∀ {copy}, p₀.nextId ≤ copy → copy < p.nextId → ∃ id, copies.get? id = some copy
  held : ∀ {id copy}, copies.get? id = some copy → ¬ open_ copy →
    Covers copies (p₀.get id) ∧ p.get copy = (p₀.get id).rename (look copies)

namespace Copying

variable {p₀ p : Pieces} {R open_ : PieceId → Prop} {copies : Copies} {id : PieceId}

theorem start : Copying p₀ R open_ [] p₀ where
  old := .refl
  given := nofun
  injective := nofun
  onto later inside := absurd inside (Nat.not_lt_of_le later)
  held := nofun

/-- A piece gets a copy, which is not finished yet. -/
theorem insert (h : Copying p₀ R open_ copies p) (isGiven : R id) (fresh : copies.get? id = none)
    (node : Node) :
    Copying p₀ R (fun c => open_ c ∨ c = p.nextId) (copies.insert id p.nextId) (p.add node) := by
  have more : Copies.Le copies (copies.insert id p.nextId) := Copies.le_insert fresh
  have cases_ {other copy : PieceId} (found : (copies.insert id p.nextId).get? other = some copy) :
      other = id ∧ copy = p.nextId ∨ copies.get? other = some copy ∧ copy < p.nextId := by
    rw [Assoc.get?_insert] at found
    split at found
    · next same => exact .inl ⟨same.symm, (Option.some.inj found).symm⟩
    · exact .inr ⟨found, (h.given found).2.2⟩
  refine ⟨⟨?_, fun other inside => ?_⟩, fun {other copy} found => ?_, fun found found' => ?_,
    fun {copy} later inside => ?_, fun {other copy} found finished => ?_⟩
  · rw [Pieces.nextId_add]
    exact Nat.le_succ_of_le h.old.nextId_le
  · rw [Pieces.get_add, if_neg (Nat.lt_of_lt_of_le inside h.old.nextId_le).ne]
    exact h.old.get_eq other inside
  · rw [Pieces.nextId_add]
    rcases cases_ found with ⟨rfl, rfl⟩ | ⟨before, -⟩
    · exact ⟨isGiven, h.old.nextId_le, Nat.lt_succ_self _⟩
    · obtain ⟨given, later, inside⟩ := h.given before
      exact ⟨given, later, Nat.lt_succ_of_lt inside⟩
  · rcases cases_ found with ⟨rfl, rfl⟩ | ⟨before, inside⟩ <;>
      rcases cases_ found' with ⟨same, same'⟩ | ⟨before', inside'⟩
    · exact same.symm
    · exact absurd inside' (Nat.lt_irrefl _)
    · exact absurd same' inside.ne
    · exact h.injective before before'
  · rw [Pieces.nextId_add] at inside
    rcases Nat.lt_succ_iff_lt_or_eq.1 inside with before | rfl
    · obtain ⟨other, found⟩ := h.onto later before
      exact ⟨other, more other copy found⟩
    · exact ⟨id, by rw [Assoc.get?_insert, if_pos rfl]⟩
  · rcases cases_ found with ⟨-, same⟩ | ⟨before, inside⟩
    · exact absurd (.inr same) finished
    · obtain ⟨covers, held⟩ := h.held before fun unfinished => finished (.inl unfinished)
      refine ⟨covers.mono more, ?_⟩
      rw [Pieces.get_add, if_neg inside.ne, held, covers.rename_eq more]

/-- The copy is finished. -/
theorem finish {copy : PieceId} (h : Copying p₀ R (fun c => open_ c ∨ c = copy) copies p)
    (found : copies.get? id = some copy) (covers : Covers copies (p₀.get id)) :
    Copying p₀ R open_ copies (p.set copy ((p₀.get id).rename (look copies))) := by
  obtain ⟨-, later, inside⟩ := h.given found
  have get_set (other : PieceId) : (p.set copy ((p₀.get id).rename (look copies))).get other =
      if copy = other then (p₀.get id).rename (look copies) else p.get other := by
    rw [Pieces.get_set]
    simp only [inside, and_true]
  refine ⟨⟨?_, fun other before => ?_⟩, ?_, h.injective, ?_, fun {other copy'} found' finished => ?_⟩
  · rw [Pieces.nextId_set]
    exact h.old.nextId_le
  · rw [get_set, if_neg (Nat.lt_of_lt_of_le before later).ne']
    exact h.old.get_eq other before
  · rw [Pieces.nextId_set]
    exact h.given
  · rw [Pieces.nextId_set]
    exact h.onto
  · rw [get_set]
    split
    · next same =>
        subst same
        cases h.injective found found'
        exact ⟨covers, rfl⟩
    · next other' =>
        exact h.held found' fun unfinished => unfinished.elim finished fun same => other' same.symm

end Copying

/-! ## Copying -/

/-- The computation copies pieces, and ends with a result for which `post` holds. -/
def Copies.Runs (p₀ : Pieces) (R open_ : PieceId → Prop) {α : Type} (c : StateT Copies Eval α)
    (copies : Copies) (m : Machine) (post : α → Copies → Prop) : Prop :=
  ∃ a copies' p, (c.run copies).run m = .ok (a, copies') { m with pieces := p } ∧
    Copying p₀ R open_ copies' p ∧ Copies.Le copies copies' ∧ post a copies'

section

variable {p₀ : Pieces} {R open_ : PieceId → Prop} {copies : Copies} {m : Machine} {α β : Type}

theorem Copies.Runs.pure {a : α} {post : α → Copies → Prop}
    (h : Copying p₀ R open_ copies m.pieces) (holds : post a copies) :
    Copies.Runs p₀ R open_ (Pure.pure a) copies m post :=
  ⟨a, copies, m.pieces, rfl, h, .refl, holds⟩

theorem Copies.Runs.bind {c : StateT Copies Eval α} {next : α → StateT Copies Eval β}
    {mid : α → Copies → Prop} {post : β → Copies → Prop}
    (first : Copies.Runs p₀ R open_ c copies m mid)
    (then_ : ∀ a copies' p, Copying p₀ R open_ copies' p → Copies.Le copies copies' →
      mid a copies' →
      Copies.Runs p₀ R open_ (next a) copies' { m with pieces := p } fun b copies'' =>
        Copies.Le copies' copies'' → post b copies'') :
    Copies.Runs p₀ R open_ (c >>= next) copies m post := by
  obtain ⟨a, copies', p, ran, copying, more, holds⟩ := first
  obtain ⟨b, copies'', p', ran', copying', more', holds'⟩ := then_ a copies' p copying more holds
  refine ⟨b, copies'', p', ?_, copying', more.trans more', holds' more'⟩
  rw [StateT.run_bind, run_bind_of_ok ran]
  exact ran'

/-- Trees are copied from left to right when each of them is. -/
theorem Copies.Runs.mapM {f : Node → StateT Copies Eval Node} {nodes : List Node}
    (each : ∀ n ∈ nodes, ∀ copies' p, Copying p₀ R open_ copies' p → Copies.Le copies copies' →
      Copies.Runs p₀ R open_ (f n) copies' { m with pieces := p } fun n' copies'' =>
        Covers copies'' n ∧ n' = n.rename (look copies''))
    (h : Copying p₀ R open_ copies m.pieces) :
    Copies.Runs p₀ R open_ (nodes.mapM f) copies m fun ns copies' =>
      (∀ n ∈ nodes, Covers copies' n) ∧ ns = nodes.map (Node.rename (look copies')) := by
  induction nodes generalizing copies m with
  | nil => exact .pure h ⟨nofun, rfl⟩
  | cons n nodes ih =>
      rw [List.mapM_cons]
      refine (each n (.head _) copies m.pieces h .refl).bind
        fun n' copies₁ p₁ copying₁ more₁ ⟨covers, renamed⟩ => ?_
      have others := ih (m := { m with pieces := p₁ })
        (fun n mem copies' p copying more => each n (.tail _ mem) copies' p copying
          (more₁.trans more)) copying₁
      refine others.bind fun ns copies₂ p₂ copying₂ more₂ ⟨coversAll, renamedAll⟩ =>
        .pure copying₂ fun _ _ => ⟨?_, ?_⟩
      · exact List.forall_mem_cons.2 ⟨covers.mono more₂, coversAll⟩
      · rw [List.map_cons, renamed, renamedAll, covers.rename_eq more₂]

/-- A piece is copied when all that stands below it is. -/
theorem Copies.Runs.fresh (isSealed : p₀.Sealed R) {id : PieceId} (isGiven : R id) {d : Nat}
    (fresh : copies.get? id = none) (h : Copying p₀ R open_ copies m.pieces)
    (below : ∀ copies₁ p₁, Copying p₀ R (fun c => open_ c ∨ c = m.pieces.nextId) copies₁ p₁ →
      copies₁ = copies.insert id m.pieces.nextId →
      Copies.Runs p₀ R (fun c => open_ c ∨ c = m.pieces.nextId)
        ((p₀.get id).children.mapM (Node.transformM (copyPlace d))) copies₁ { m with pieces := p₁ }
        fun ns copies' => (∀ n ∈ (p₀.get id).children, Covers copies' n) ∧
          ns = (p₀.get id).children.map (Node.rename (look copies'))) :
    Copies.Runs p₀ R open_ (copyPlace (d + 1) (.piece id)) copies m fun n copies' =>
      Covers copies' (.piece id) ∧ n = (Node.piece id).rename (look copies') := by
  have content := isSealed.content id isGiven
  have held : m.pieces.get id = p₀.get id := h.old.get_eq id (isSealed.inside id isGiven)
  have begun := h.insert isGiven fresh (p₀.get id)
  obtain ⟨ns, copies', p, ran, copying, more, covers, rfl⟩ := below _ _ begun rfl
  have found : copies'.get? id = some m.pieces.nextId :=
    more id _ (by rw [Assoc.get?_insert, if_pos rfl])
  have coversBelow : Covers copies' (p₀.get id) := by
    intro other refers
    obtain ⟨c, mem, refers⟩ := (Node.refers_iff_of_not_piece content).1 refers
    exact covers c mem other refers
  refine ⟨.piece m.pieces.nextId, copies', _, ?_, copying.finish found coversBelow,
    (Copies.le_insert fresh).trans more, fun other refers => ?_, ?_⟩
  · rw [Renumbering.run_copyPlace_of_fresh fresh]
    have read : (Eval.piece id).run m = .ok (p₀.get id) m :=
      congrArg (EStateM.Result.ok · m) held
    have added : (Eval.newPiece (p₀.get id)).run m =
        .ok m.pieces.nextId { m with pieces := m.pieces.add (p₀.get id) } := rfl
    rw [run_bind_of_ok read, run_bind_of_ok added, Node.belowM_eq, StateT.run_map,
      ← bind_pure_comp, bind_assoc, run_bind_of_ok ran, pure_bind, ← Node.rename_eq content]
    rfl
  · rw [Node.refers_piece_iff.1 refers, found]
    rfl
  · rw [Node.rename_piece, look_eq found]

/-- The tree is copied, if it refers to pieces of the set only and as many pieces may stand inside
each other as are left. -/
theorem Copies.Runs.transformM (isSealed : p₀.Sealed R) {d : Nat} {n : Node}
    (refers : ∀ id, n.Refers id → R id)
    (enough : (Renumbering.uncopied p₀.nextId copies).card < d)
    (h : Copying p₀ R open_ copies m.pieces) :
    Copies.Runs p₀ R open_ (n.transformM (copyPlace d)) copies m fun n' copies' =>
      Covers copies' n ∧ n' = n.rename (look copies') := by
  -- A piece that is met has not been copied yet, so one piece less is left inside it.
  induction d generalizing n open_ copies m with
  | zero => exact absurd enough (Nat.not_lt_zero _)
  | succ d ih =>
    induction n using Node.childInduction generalizing open_ copies m with
    | step n ihChild =>
      cases isPiece : n.isPiece with
      | false =>
          rw [Node.transformM_eq]
          refine (Copies.Runs.mapM (fun c mem copies' p copying more => ?_) h).bind
            fun ns copies' p copying more ⟨covers, renamed⟩ => ?_
          · refine ihChild c mem (fun id inside => refers id (.child mem inside)) ?_ copying
            exact Nat.lt_of_le_of_lt (Finset.card_le_card (more.uncopied_subset _)) enough
          · have other : (n.rename (look copies')).isPiece = false :=
              (Node.isPiece_rename _ n).trans isPiece
            have given : Node.giveM (copyPlace (d + 1)) (n.withChildren ns) =
                Pure.pure (n.rename (look copies')) := by
              rw [renamed, ← Node.rename_eq isPiece]
              generalize n.rename (look copies') = result at other
              cases result with
              | piece id => cases other
              | _ => rfl
            rw [given]
            refine .pure copying fun _ => ⟨fun id inside => ?_, rfl⟩
            obtain ⟨c, mem, inside⟩ := (Node.refers_iff_of_not_piece isPiece).1 inside
            exact covers c mem id inside
      | true =>
          obtain ⟨id, rfl⟩ := Node.eq_piece_of_isPiece isPiece
          have place : (Node.piece id).transformM (copyPlace (d + 1)) =
              copyPlace (d + 1) (.piece id) := by
            rw [Node.transformM_eq]
            exact pure_bind _ _
          rw [place]
          have isGiven := refers id .piece
          cases found : copies.get? id with
          | some copy =>
              refine ⟨.piece copy, copies, m.pieces, ?_, h, .refl, fun other inside => ?_, ?_⟩
              · rw [Renumbering.run_copyPlace_of_copied found]
                rfl
              · rw [Node.refers_piece_iff.1 inside, found]
                rfl
              · rw [Node.rename_piece, look_eq found]
          | none =>
              refine Copies.Runs.fresh isSealed isGiven found h fun copies₁ p₁ begun same => ?_
              refine Copies.Runs.mapM (fun c mem copies' p copying more => ?_) begun
              refine ih (fun other inside => ?_) ?_ copying
              · exact isSealed.refers id isGiven other (.child mem inside)
              · have fewer := uncopied_insert_lt m.pieces.nextId
                  (isSealed.inside id isGiven) found
                have fewer' := Finset.card_le_card (more.uncopied_subset p₀.nextId)
                rw [same] at fewer'
                omega

end

/-- The tree `n'` among the pieces `p'` is a copy of the tree `n` among the pieces `p`, in which the
pieces in `Met` have got the numbers that `ρ` gives them. -/
structure Copied (p : Pieces) (n : Node) (Met : PieceId → Prop) (ρ : PieceId → PieceId)
    (p' : Pieces) (n' : Node) : Prop where
  eq : n' = n.rename ρ
  old : p.Extends p'
  refers : ∀ id, n.Refers id → Met id
  closed : ∀ id, Met id → ∀ other, (p.get id).Refers other → Met other
  new : ∀ id, Met id → p.nextId ≤ ρ id ∧ ρ id < p'.nextId
  injective : ∀ id id', Met id → Met id' → ρ id = ρ id' → id = id'
  onto : ∀ copy, p.nextId ≤ copy → copy < p'.nextId → ∃ id, Met id ∧ ρ id = copy
  content : ∀ id, Met id → p'.get (ρ id) = (p.get id).rename ρ

/-- Copying changes nothing but that there are more pieces. -/
theorem run_copy {R : PieceId → Prop} {n : Node} {m : Machine} (isSealed : m.pieces.Sealed R)
    (refers : ∀ id, n.Refers id → R id) :
    ∃ Met ρ p', (copy n).run m = .ok (n.rename ρ) { m with pieces := p' } ∧
      (∀ id, Met id → R id) ∧ Copied m.pieces n Met ρ p' (n.rename ρ) := by
  have enough : (Renumbering.uncopied m.pieces.nextId []).card < m.pieces.nextId + 1 := by
    have le := Finset.card_filter_le (Finset.range m.pieces.nextId) fun id =>
      Assoc.get? id ([] : Quote.Copies) = none
    rw [Finset.card_range] at le
    exact Nat.lt_succ_of_le le
  have start : Copying m.pieces R (fun _ => False) [] m.pieces := .start
  obtain ⟨_, copies, p', ran, copying, -, covers, rfl⟩ :=
    Copies.Runs.transformM isSealed refers enough start
  refine ⟨fun id => (copies.get? id).isSome, look copies, p', ?_, fun id met => ?_, rfl,
    copying.old, covers, fun id met other inside => ?_, fun id met => ?_,
    fun id id' met met' same => ?_, fun copy later inside => ?_, fun id met => ?_⟩
  · have run_eq : (Quote.copy n).run m =
        ((Prod.fst <$> (n.transformM (copyPlace (m.pieces.nextId + 1))).run []) : Eval Node).run m :=
      rfl
    rw [run_eq, ← bind_pure_comp, run_bind_of_ok ran]
    rfl
  · obtain ⟨copy, found⟩ := Option.isSome_iff_exists.1 met
    exact (copying.given found).1
  · obtain ⟨copy, found⟩ := Option.isSome_iff_exists.1 met
    exact (copying.held found not_false).1 other inside
  · obtain ⟨copy, found⟩ := Option.isSome_iff_exists.1 met
    rw [look_eq found]
    exact (copying.given found).2
  · obtain ⟨copy, found⟩ := Option.isSome_iff_exists.1 met
    obtain ⟨copy', found'⟩ := Option.isSome_iff_exists.1 met'
    rw [look_eq found, look_eq found'] at same
    exact copying.injective found (same ▸ found')
  · obtain ⟨id, found⟩ := copying.onto later inside
    exact ⟨id, Option.isSome_iff_exists.2 ⟨copy, found⟩, look_eq found⟩
  · obtain ⟨copy, found⟩ := Option.isSome_iff_exists.1 met
    rw [look_eq found]
    exact (copying.held found not_false).2

end Quote

end MonkeyLang
