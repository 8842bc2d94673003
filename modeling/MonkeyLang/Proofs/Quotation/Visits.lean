import MonkeyLang.Proofs.Evaluation.Settled
import MonkeyLang.Proofs.Quotation.Trees

/-!
# Quotations in a setting

What a quotation does to a tree, as a family of computations in a setting: the visits of the
children of a node one after the other, the replacement of a node, and the making of a quotation out
of the tree that results.

* `Eval.Setting.Quotable` says that trees which may be quoted are put together from such trees.
* `Eval.Setting.Runs.replaced` is the rule for the replacement of one node.
* `Eval.Setting.Runs.newQuote` is the rule for a new quotation.
-/

namespace MonkeyLang

namespace Eval.Setting

variable {S : Eval.Setting} {F : Filter Nat} {m : Machine}

/-! ## Visits of nodes in a row -/

/-- What the elements of one list bring about for those of another one. -/
theorem forall_right {α β : Type} {R : α → β → Prop} {P : β → Prop} {as : List α} {bs : List β}
    (h : List.Forall₂ R as bs) (holds : ∀ a b, R a b → P b) : ∀ b ∈ bs, P b := by
  induction h with
  | nil => exact nofun
  | cons related _ ih => exact List.forall_mem_cons.2 ⟨holds _ _ related, ih⟩

theorem forall_left {α β : Type} {R : α → β → Prop} {P : α → Prop} {as : List α} {bs : List β}
    (h : List.Forall₂ R as bs) (holds : ∀ a b, R a b → P a) : ∀ a ∈ as, P a :=
  forall_right h.flip fun b a => holds a b

/-- Nodes are visited from left to right. Meanwhile `I` is kept, and what holds of a node and of what
has come of it, lasts. -/
theorem Runs.mapM {α β : Type} {f : Nat → α → Eval β} {nodes : List α} {I : Machine → Prop}
    {R : Machine → α → β → Prop}
    (lasting : ∀ {m m' n n'}, S.Later m m' → R m n n' → R m' n n')
    (each : ∀ n ∈ nodes, ∀ m', S.Later m m' → I m' →
      S.Runs F m' (fun i => f i n) fun m'' n' => I m'' ∧ R m'' n n')
    (start : I m) :
    S.Runs F m (fun i => nodes.mapM (f i)) fun m' ns => I m' ∧ List.Forall₂ (R m') nodes ns := by
  induction nodes generalizing m with
  | nil => exact .pure ⟨start, .nil⟩
  | cons n nodes ih =>
      simp only [List.mapM_cons]
      refine (each n (.head _) m .refl start).bind fun n' m₁ later₁ _ ⟨kept₁, related⟩ => ?_
      have others := ih (fun n mem m' later => each n (.tail _ mem) m' (later₁.trans later)) kept₁
      exact others.bind fun ns m₂ later₂ _ ⟨kept₂, relatedAll⟩ =>
        .pure ⟨kept₂, .cons (lasting later₂ related) relatedAll⟩

/-- Below a node all children are visited. -/
theorem Runs.belowM {f : Nat → Node → Eval Node} {n : Node} {I : Machine → Prop}
    {R : Machine → Node → Node → Prop}
    (lasting : ∀ {m m' n n'}, S.Later m m' → R m n n' → R m' n n')
    (each : ∀ c ∈ n.children, ∀ m', S.Later m m' → I m' →
      S.Runs F m' (fun i => c.transformM (f i)) fun m'' c' => I m'' ∧ R m'' c c')
    (start : I m) :
    S.Runs F m (fun i => n.belowM (f i)) fun m' n' =>
      I m' ∧ ∃ ns, n' = n.withChildren ns ∧ List.Forall₂ (R m') n.children ns := by
  have visits := Runs.mapM (f := fun i c => c.transformM (f i)) (R := R) lasting each start
  refine (visits.bind (f := fun _ ns => Pure.pure (n.withChildren ns)) fun ns m' _ _ h =>
    .pure ⟨h.1, ns, rfl, h.2⟩).congr (.of_forall fun i => ?_)
  rw [Node.belowM_eq]
  rfl

/-! ## Trees that may be quoted -/

/-- The trees that may be quoted are put together from such trees. An identifier in the place of a
child is that child. A tree that may be quoted can be kept as a piece. -/
structure Quotable (S : Eval.Setting) : Prop where
  leaf : ∀ {p n}, n.isCompound = false → n.isPiece = false → S.quoted p n
  child : ∀ {p n c}, n.isPiece = false → S.quoted p n → c ∈ n.children → S.quoted p c
  rebuild : ∀ {p n ns}, n.isPiece = false → S.quoted p n → List.Forall₂ Node.Heads n.children ns →
    (∀ c ∈ ns, S.quoted p c) → S.quoted p (n.withChildren ns)
  add : ∀ {p n}, S.pieces p → n.isCompound = true → S.quoted p n →
    S.pieces (p.add n) ∧ S.moves p (p.add n) ∧ S.quoted (p.add n) (.piece p.nextId)

/-- A literal may be quoted if the value may occur. -/
theorem Quotable.literal (h : S.Quotable) {v : MonkeyLang.Value} {n : Node} (fits : S.Value m v)
    (denotes : Quote.literal v = .ok n) : S.quoted m.pieces n := by
  unfold Quote.literal at denotes
  split at denotes
  · next b _ =>
      cases denotes
      cases b <;> exact h.leaf rfl rfl
  · split at denotes
    · cases denotes
      exact h.leaf rfl rfl
    · cases denotes
  · cases denotes
    exact Value.Fits.quote_iff.1 fits
  · cases denotes
  · cases denotes

/-- An exit in place of a literal is a fault, or a halt for want of digits. -/
theorem atExit_literal {v : MonkeyLang.Value} {exit : Exit}
    (fails : Quote.literal v = .error exit) : S.AtExit m exit := by
  unfold Quote.literal at fails
  split at fails
  · cases fails
  · split at fails <;> cases fails
    exact fun _ => nofun
  · cases fails
  · cases fails
    exact trivial
  · cases fails
    exact trivial

/-! ## Replacements -/

theorem Runs.unquoted {run : Nat → Node → Eval MonkeyLang.Value} {argument : Node}
    (evaluates : S.Runs F m (fun i => run i argument) S.Value) :
    S.Runs F m (fun i => Quote.unquoted (run i) argument) S.Value := by
  refine evaluates.tryCatch fun exit m' _ _ atExit => ?_
  cases exit with
  | returned v => exact .fail
  | failed fault => exact .throw atExit
  | halted halt => exact .throw atExit

/-- What takes the place of a call of `unquote` may be quoted. -/
theorem Runs.splice (h : S.Quotable) (run : Nat → Node → Eval MonkeyLang.Value)
    {arguments : List Node}
    (evaluates : ∀ argument, arguments = [argument] →
      S.Runs F m (fun i => run i argument) S.Value) :
    S.Runs F m (fun i => Quote.splice (run i) arguments) fun m' n => S.quoted m'.pieces n := by
  match arguments with
  | [argument] =>
    refine (Runs.unquoted (evaluates argument rfl)).bind fun v m' _ _ fits => ?_
    cases denotes : Quote.literal v with
    | ok n => exact .pure (h.literal fits denotes)
    | error exit => exact .throw (atExit_literal denotes)
  | [] | _ :: _ :: _ => exact .fail

/-- A call of `unquote` is replaced, and of any other node something else stays. -/
theorem Runs.replaced (h : S.Quotable) {run : Nat → Node → Eval MonkeyLang.Value}
    {n kept : Node} {post : Machine → Node → Prop}
    (evaluates : ∀ argument, n.unquotes? = some [argument] →
      S.Runs F m (fun i => run i argument) S.Value)
    (stays : n.unquotes? = none → post m kept)
    (replaced : ∀ arguments m' n', n.unquotes? = some arguments → S.Later m m' → S.Sound m' →
      S.quoted m'.pieces n' → post m' n') :
    S.Runs F m (fun i => do return (← Quote.substitute? (run i) n).getD kept) post := by
  cases unquotes : n.unquotes? with
  | none =>
      refine Runs.congr (c := fun _ => Pure.pure kept) (.pure (stays unquotes)) (.of_forall fun i => ?_)
      rw [Quote.substitute?_of_none _ unquotes]
      rfl
  | some arguments =>
      obtain ⟨t, u, rfl⟩ := Node.eq_call_of_unquotes? unquotes
      have spliced := Runs.splice h run fun argument same =>
        evaluates argument (same ▸ unquotes)
      refine (spliced.mono fun n' m' later sound quoted =>
        replaced arguments m' n' unquotes later sound quoted).congr (.of_forall fun i => ?_)
      rw [Quote.substitute?_call, map_eq_pure_bind, bind_assoc]
      exact congrFun (bind_pure (Quote.splice (run i) arguments)) m

/-- A node that is no place of a piece is visited when its children have been. -/
theorem giveM_unquote {run : Node → Eval MonkeyLang.Value} {d : Nat} {n : Node}
    (other : n.isPiece = false) :
    Node.giveM (Quote.unquote run d) n =
      (do return (← Quote.substitute? run n).getD n : Eval Node) := by
  cases n with
  | piece id => cases other
  | missing => rfl
  | _ => cases d <;> rfl

/-- The visit of a node that is no place of a piece. -/
theorem Runs.visitNode (h : S.Quotable) {run : Nat → Node → Eval MonkeyLang.Value}
    {depth : Nat → Nat} {n : Node} {I : Machine → Prop} {R : Machine → Node → Node → Prop}
    {post : Machine → Node → Prop} (other : n.isPiece = false)
    (lasting : ∀ {m m' n n'}, S.Later m m' → R m n n' → R m' n n')
    (each : ∀ c ∈ n.children, ∀ m', S.Later m m' → I m' →
      S.Runs F m' (fun i => c.transformM (Quote.unquote (run i) (depth i))) fun m'' c' =>
        I m'' ∧ R m'' c c')
    (start : I m)
    (evaluates : ∀ m' ns argument, S.Later m m' → List.Forall₂ (R m') n.children ns →
      (n.withChildren ns).unquotes? = some [argument] →
      S.Runs F m' (fun i => run i argument) S.Value)
    (stays : ∀ m' ns, S.Later m m' → S.Sound m' → I m' → List.Forall₂ (R m') n.children ns →
      (n.withChildren ns).unquotes? = none → post m' (n.withChildren ns))
    (replaced : ∀ m' m'' ns arguments n', S.Later m m' → I m' →
      List.Forall₂ (R m') n.children ns → (n.withChildren ns).unquotes? = some arguments →
      S.Later m' m'' → S.quoted m''.pieces n' → post m'' n') :
    S.Runs F m (fun i => n.transformM (Quote.unquote (run i) (depth i))) post := by
  have below := Runs.belowM (f := fun i => Quote.unquote (run i) (depth i)) (R := R) lasting each
    start
  refine below.bind fun _ m' later sound ⟨kept, ns, same, related⟩ => ?_
  subst same
  have other' : (n.withChildren ns).isPiece = false := by rw [Node.isPiece_withChildren, other]
  simp only [giveM_unquote other']
  exact Runs.replaced h (fun argument => evaluates m' ns argument later related)
    (fun unquotes => stays m' ns later sound kept related unquotes)
    fun arguments m'' n' unquotes later' _ => replaced m' m'' ns arguments n' later kept related
      unquotes later'

/-! ## New quotations -/

theorem Runs.keep (h : S.Quotable) {n : Node} (quoted : S.quoted m.pieces n) :
    S.Runs F m (fun _ => Eval.keep n) fun m' n' => S.quoted m'.pieces n' ∧ n.Heads n' := by
  cases compound : n.isCompound with
  | false =>
      simp only [Eval.keep, compound, Bool.false_eq_true, if_false]
      exact .pure ⟨quoted, .refl n⟩
  | true =>
      simp only [Eval.keep, compound, if_true]
      refine .of_sound fun sound => ?_
      obtain ⟨pieces, moves, added⟩ := h.add sound.pieces compound quoted
      have kept : S.Runs F m (fun _ => Eval.newPiece n) fun m' id =>
          S.quoted m'.pieces (.piece id) :=
        .modifyGet ⟨Nat.le_refl _, moves⟩ (fun _ => sound.of_moves moves pieces) added
      exact kept.bind fun id m' _ _ quoted => .pure ⟨quoted, nofun⟩

theorem Runs.keepBody (h : S.Quotable) {n : Node} (quoted : S.quoted m.pieces n)
    (other : n.isPiece = false) :
    S.Runs F m (fun _ => Eval.keepBody n) fun m' n' => S.quoted m'.pieces n' ∧ n.Heads n' := by
  cases n with
  | fnLit t parameters body =>
      have bodyQuoted : S.quoted m.pieces body := h.child rfl quoted (by simp [Node.children])
      refine (Runs.keep h bodyQuoted).bind fun body' m' later _ kept =>
        .pure ⟨?_, .of_isCompound rfl⟩
      obtain ⟨quoted', heads⟩ := kept
      have all : ∀ c ∈ parameters ++ [body'], S.quoted m'.pieces c := by
        intro c mem
        rcases List.mem_append.1 mem with inside | same
        · exact S.quoted_moves later.moves (h.child rfl quoted (List.mem_append_left _ inside))
        · rwa [List.mem_singleton.1 same]
      have heads : List.Forall₂ Node.Heads (parameters ++ [body]) (parameters ++ [body']) :=
        List.rel_append (List.forall₂_same.2 fun c _ => .refl c) (.cons heads .nil)
      rw [← Node.withChildren_fnLit t parameters parameters body body']
      exact h.rebuild rfl (S.quoted_moves later.moves quoted) heads all
  | _ => exact .pure ⟨quoted, .refl _⟩

/-- The bodies of functions in a quoted tree are kept. -/
theorem Runs.keepBodies (h : S.Quotable) (n : Node) (quoted : S.quoted m.pieces n) :
    S.Runs F m (fun _ => n.transformM Eval.keepBody) fun m' n' =>
      S.quoted m'.pieces n' ∧ n.Heads n' := by
  induction n using Node.childInduction generalizing m with
  | step n ih =>
      cases isPiece : n.isPiece with
      | true =>
          obtain ⟨id, rfl⟩ := Node.eq_piece_of_isPiece isPiece
          exact .pure ⟨quoted, .refl _⟩
      | false =>
          have below := Runs.belowM (S := S) (F := F) (m := m) (n := n) (I := fun _ => True)
            (f := fun _ => Eval.keepBody) (R := fun m' c c' => S.quoted m'.pieces c' ∧ c.Heads c')
            (fun later h => ⟨S.quoted_moves later.moves h.1, h.2⟩)
            (fun c mem m' later _ =>
              (ih c mem (S.quoted_moves later.moves (h.child isPiece quoted mem))).mono
                fun _ _ _ _ h => ⟨trivial, h⟩) trivial
          refine below.bind fun _ m' later _ ⟨_, ns, same, related⟩ => ?_
          subst same
          have heads := n.heads_withChildren ns
          have quoted' : S.quoted m'.pieces (n.withChildren ns) :=
            h.rebuild isPiece (S.quoted_moves later.moves quoted)
              (related.imp fun _ _ h => h.2) (forall_right related fun _ _ h => h.1)
          have other : (n.withChildren ns).isPiece = false := by
            rw [Node.isPiece_withChildren, isPiece]
          generalize n.withChildren ns = n' at heads quoted' other ⊢
          cases n' with
          | missing => exact .pure ⟨quoted', heads⟩
          | _ =>
              exact (Runs.keepBody h quoted' other).mono fun _ _ _ _ h' =>
                ⟨h'.1, fun t name same => heads t name (h'.2 t name same)⟩

/-- A tree that may be quoted makes a quotation. -/
theorem Runs.newQuote (h : S.Quotable) {n : Node} (quoted : S.quoted m.pieces n) :
    S.Runs F m (fun _ => Eval.newQuote n) S.Value := by
  refine (Runs.keepBodies h n quoted).bind fun n₁ m₁ _ _ h₁ => ?_
  refine (Runs.keep h h₁.1).bind fun n₂ m₂ _ _ h₂ => ?_
  exact Runs.newSerial.bind fun _ _ later _ _ =>
    .pure (.quote (S.quoted_moves later.moves h₂.1))

end Eval.Setting

end MonkeyLang
