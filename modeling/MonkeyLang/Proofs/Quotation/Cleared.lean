import MonkeyLang.Proofs.Quotation.Clearing

/-!
# The visits of a copy

The visits of the nodes of a copy, one after the other, in the setting in which a copy is cleared.

* `Clearing.visits` says that of a tree with an end a calm tree comes, in the end.
* `Clearing.never` says that the visit of a tree without end comes to no result.
* `Calm.quote` is what follows for the quoting form.
-/

namespace MonkeyLang

namespace Clearing

variable {C : Calm} {W : Clearing C} {p : Pieces} {n : Node} {j : PieceId}
  {still : PieceId → Prop}

/-! ## Keeping what has come of a piece -/

/-- A call of `unquote` stays one when its arguments have been visited. -/
theorem unquotes?_ne_none {ns : List Node} (unquotes : n.unquotes? ≠ none)
    (related : List.Forall₂ (Result C p) n.children ns) : (n.withChildren ns).unquotes? ≠ none := by
  obtain ⟨arguments, found⟩ := Option.ne_none_iff_exists'.1 unquotes
  obtain ⟨t, u, rfl⟩ := Node.eq_call_of_unquotes? found
  cases related with
  | @cons _ callee _ rest result _ =>
      have same : callee = .ident u Quote.unquoteName := by
        rcases result.2 with same | spoilt
        · exact same
        · cases spoilt with
          | here unquotes => exact absurd rfl unquotes
          | child mem => cases mem
      rw [same]
      simp [Node.withChildren, Node.unquotes?]

theorem get_set (h : W.Holds p) (met : W.Met j) (node : Node) (id : PieceId) :
    (p.set (W.ρ j) node).get id = if W.ρ j = id then node else p.get id := by
  rw [Pieces.get_set]
  simp only [h.inside j met, and_true]

/-- When a piece of the copy is kept with all below it visited, what is calm stays so. For if the
piece is calm itself, nothing in it has changed. -/
theorem moves_set (h : W.Holds p) (met : W.Met j) (notStill : ¬ still j) {ns : List Node}
    (related : List.Forall₂ (Result C p) (p.get (W.ρ j)).children ns) :
    W.Moves still p (p.set (W.ρ j) ((p.get (W.ρ j)).withChildren ns)) where
  nextId_le := (Pieces.nextId_set ..).ge
  tree n tree := by
    by_cases calm : C.Tree p (.piece (W.ρ j))
    · rcases withChildren_or_spoilt related with same | spoilt
      · rwa [same, Calm.set_get]
      · exact absurd (Pieces.Tree.piece_iff.1 calm).2 spoilt.not_calm
    · refine tree.of_same fun id calm' => ?_
      rw [get_set h met, if_neg]
      rintro rfl
      exact calm calm'
  unquotes id unquotes := by
    rw [get_set h met]
    split
    · next same =>
        subst same
        exact unquotes?_ne_none unquotes related
    · exact unquotes
  same k met' isStill := by
    rw [get_set h met, if_neg]
    intro same
    exact notStill (W.injective j k met met' same ▸ isStill)

/-- Then all below the piece is calm. -/
theorem holds_set (h : W.Holds p) (met : W.Met j)
    (tree : W.first.Tree (Node.Grounded C.total) (.piece j))
    (compound : (p.get (W.ρ j)).isCompound = true)
    (grounded : (p.get (W.ρ j)).Grounded C.total) {ns : List Node}
    (related : List.Forall₂ (Result C p) (p.get (W.ρ j)).children ns) :
    W.Holds (p.set (W.ρ j) ((p.get (W.ρ j)).withChildren ns)) := by
  have moves : W.Moves (fun _ => False) p _ := moves_set h met id related
  have nextId_eq := Pieces.nextId_set p (W.ρ j) ((p.get (W.ρ j)).withChildren ns)
  have children := Node.children_withChildren (n := p.get (W.ρ j)) related.length_eq.symm
  have calm := Eval.Setting.forall_right related fun _ _ result => result.1
  have old (before : Pieces) (first : before.nextId ≤ W.first.nextId) (h' : before.Extends p) :
      before.Extends (p.set (W.ρ j) ((p.get (W.ρ j)).withChildren ns)) := by
    refine ⟨nextId_eq ▸ h'.nextId_le, fun id inside => ?_⟩
    rw [get_set h met, if_neg]
    · exact h'.get_eq id inside
    · rintro rfl
      exact Nat.lt_irrefl _ (Nat.lt_of_lt_of_le inside (Nat.le_trans first (W.new j met)))
  refine ⟨⟨old _ W.base.nextId_le h.calm.old, fun partial_ => ?_⟩, old _ (Nat.le_refl _) h.old,
    fun k met' => nextId_eq ▸ h.inside k met', fun k met' => ?_⟩
  · refine (h.calm.solid partial_).set (by rwa [Node.isCompound_withChildren]) fun id refers => ?_
    have other := Pieces.isPiece_of_isCompound compound
    obtain ⟨c, mem, refers⟩ := (Node.refers_withChildren other related.length_eq.symm).1 refers
    exact ((calm c mem).refers refers).inside
  · rw [get_set h met]
    split
    · next same =>
        obtain rfl := W.injective j k met met' same
        refine .inr ⟨⟨?_, ?_, ?_⟩, tree⟩ <;> rw [get_set h met, if_pos rfl]
        · rwa [Node.isCompound_withChildren]
        · exact fun isTotal => by rw [Node.isFunction_withChildren, grounded isTotal]
        · rw [children]
          exact fun c mem => moves.tree c (calm c mem)
    · next other =>
        refine (h.pieces k met').imp_right fun ⟨done, tree⟩ => ⟨⟨?_, ?_, ?_⟩, tree⟩ <;>
          rw [get_set h met, if_neg other]
        · exact done.compound
        · exact done.grounded
        · exact fun c mem => moves.tree c (done.children c mem)

/-! ## Visits -/

variable {F : Filter Nat} {e : ScopeId} {run : Nat → Node → Eval Value} {m : Machine}

/-- The visit of the copy of a tree comes to a result, whatever pieces outside it are to stay as they
are. -/
def Visits (W : Clearing C) (F : Filter Nat) (e : ScopeId) (run : Nat → Node → Eval Value)
    (n : Node) : Prop :=
  ∀ still depth m, C.Deep F depth → (∀ j, W.first.Stands n j → ¬ still j) →
    C.setting.Scope m e →
    (W.setting still).Runs F m (fun i => (n.rename W.ρ).transformM (Quote.unquote (run i) (depth i)))
      fun m' n' => Result C m'.pieces (n.rename W.ρ) n'

section

variable (evaluates : ∀ argument m', C.setting.Scope m' e → C.Tree m'.pieces argument →
    C.setting.Runs F m' (fun i => run i argument) C.setting.Value)
include evaluates

theorem visits_node (other : n.isPiece = false) (grounded : n.Grounded C.total)
    (children : ∀ c ∈ n.children, W.Visits F e run c) : W.Visits F e run n := by
  intro still depth m deep apart inside
  have other' : (n.rename W.ρ).isPiece = false := by rw [Node.isPiece_rename, other]
  have grounded' : (n.rename W.ρ).Grounded C.total := fun isTotal => by
    rw [Node.rename_eq other, Node.isFunction_withChildren, grounded isTotal]
  refine .visitNode (W.quotable still) (I := fun _ => True)
    (R := fun m' c c' => Result C m'.pieces c c') other' (fun later h => h.moves later.moves)
    ?_ trivial ?_ ?_ ?_
  · intro c' mem m' later _
    rw [Node.children_rename other] at mem
    obtain ⟨c, child, rfl⟩ := List.mem_map.1 mem
    have apart' (j : PieceId) (stands : W.first.Stands c j) : ¬ still j :=
      apart j (stands.child child)
    exact (children c child still depth m' deep apart' (later.scope inside)).mono
      fun _ _ _ _ h => ⟨trivial, h⟩
  · intro m' ns argument later related unquotes
    exact lift (evaluates argument m' (later.scope inside) (tree_argument related unquotes))
  · intro m' ns _ _ _ related unquotes
    exact ⟨tree_withChildren other' grounded' related unquotes, withChildren_or_spoilt related⟩
  · intro m' m'' ns arguments n' _ _ related unquotes later' quoted
    refine ⟨quoted, .inr (spoilt_moves later'.moves ?_)⟩
    rcases withChildren_or_spoilt related with same | spoilt
    · exact .here (by rw [← same, unquotes]; exact nofun)
    · exact spoilt

/-- A piece is visited when all below it has been. -/
theorem visits_below (met : W.Met j) (tree : W.first.Tree (Node.Grounded C.total) (.piece j))
    (notStill : ¬ still j) (inside : C.setting.Scope m e) {content : Node} {depth : Nat → Nat}
    (compound : content.isCompound = true) (grounded : content.Grounded C.total)
    (below : (W.setting still).Runs F m
      (fun i => content.belowM (Quote.unquote (run i) (depth i))) fun m' node =>
        m'.pieces.get (W.ρ j) = content ∧ ∃ ns, node = content.withChildren ns ∧
          List.Forall₂ (Result C m'.pieces) content.children ns) :
    (W.setting still).Runs F m (fun i => content.belowM (Quote.unquote (run i) (depth i)) >>=
      fun node => do
        Eval.setPiece (W.ρ j) node
        return (← Quote.substitute? (run i) node).getD (.piece (W.ρ j)))
      fun m' n' => Result C m'.pieces (.piece (W.ρ j)) n' := by
  refine below.bind ?_
  rintro _ m₁ later₁ sound₁ ⟨same, ns, rfl, related⟩
  have holds : W.Holds m₁.pieces := sound₁.pieces
  subst same
  have moves := moves_set holds met notStill related
  have holds' := holds_set holds met tree compound grounded related
  have other := Pieces.isPiece_of_isCompound compound
  have set : (W.setting still).Runs F m₁
      (fun _ => Eval.setPiece (W.ρ j) ((m₁.pieces.get (W.ρ j)).withChildren ns)) fun m' _ =>
        m'.pieces = m₁.pieces.set (W.ρ j) ((m₁.pieces.get (W.ρ j)).withChildren ns) :=
    .modifyGet ⟨Nat.le_refl _, moves⟩ (fun _ => sound₁.of_moves moves holds') rfl
  refine set.bind fun _ m₂ later₂ _ same₂ => ?_
  have related₂ : List.Forall₂ (Result C m₂.pieces) (m₁.pieces.get (W.ρ j)).children ns :=
    related.imp fun _ _ result => result.moves later₂.moves
  have kept : m₂.pieces.get (W.ρ j) = (m₁.pieces.get (W.ρ j)).withChildren ns := by
    rw [same₂, get_set holds met, if_pos rfl]
  refine .replaced (W.quotable still) (fun argument unquotes => ?_) (fun unquotes => ?_) ?_
  · refine lift (evaluates argument m₂ ?_ (tree_argument related₂ unquotes))
    exact later₂.scope (later₁.scope inside)
  · refine ⟨.piece ?_ ?_, .inl rfl⟩ <;> rw [kept]
    · rwa [Node.isCompound_withChildren]
    · exact tree_withChildren other grounded related₂ unquotes
  · intro arguments m' n' unquotes later' _ quoted
    refine ⟨quoted, .inr (spoilt_moves later'.moves (.piece ?_))⟩
    rw [kept, unquotes]
    exact nofun

theorem visits_piece (met : W.Met j) (tree : W.first.Tree (Node.Grounded C.total) (.piece j))
    (children : ∀ c ∈ (W.first.get j).children, W.Visits F e run c) :
    W.Visits F e run (.piece j) := by
  intro still depth m deep apart inside
  refine .of_sound fun sound => ?_
  have holds : W.Holds m.pieces := sound.pieces
  have notStill : ¬ still j := apart j ⟨j, .piece, .refl⟩
  rw [Node.rename_piece]
  rcases deep.cases with enough | ⟨partial_, none⟩
  case inr =>
    have halts : (W.setting still).AtExit m (.halted .overflow) := fun isTotal => absurd isTotal partial_
    exact .congr (.throw halts) (none.mono fun i zero => by rw [zero]; rfl)
  suffices below : (W.setting still).Runs F m
      (fun i => (m.pieces.get (W.ρ j)).belowM (Quote.unquote (run i) (depth i - 1))) fun m' node =>
        m'.pieces.get (W.ρ j) = m.pieces.get (W.ρ j) ∧
          ∃ ns, node = (m.pieces.get (W.ρ j)).withChildren ns ∧
            List.Forall₂ (Result C m'.pieces) (m.pieces.get (W.ρ j)).children ns by
    have compound_first := (Pieces.Tree.piece_iff.1 tree).1
    have compound : (m.pieces.get (W.ρ j)).isCompound = true ∧
        (m.pieces.get (W.ρ j)).Grounded C.total := by
      rcases holds.pieces j met with copied | ⟨done, -⟩
      · rw [copied]
        refine ⟨Node.isCompound_rename W.ρ compound_first, fun isTotal => ?_⟩
        rw [Node.rename_eq (Pieces.isPiece_of_isCompound compound_first),
          Node.isFunction_withChildren, tree.content.1 isTotal]
      · exact ⟨done.compound, done.grounded⟩
    refine (visits_below evaluates met tree notStill inside compound.1 compound.2 below).congr ?_
    refine enough.mono fun i eq => ?_
    rw [eq]
    exact Quote.transformM_unquote_piece (W.ρ j) m
  rcases holds.pieces j met with copied | ⟨done, -⟩
  · rw [copied]
    have other := Pieces.isPiece_of_isCompound (Pieces.Tree.piece_iff.1 tree).1
    -- The piece itself stays as it is while what is below it is visited: it does not stand in itself.
    have below : (W.setting fun k => still k ∨ k = j).Runs F m
        (fun i => ((W.first.get j).rename W.ρ).belowM (Quote.unquote (run i) (depth i - 1)))
        fun m' node => True ∧ ∃ ns, node = ((W.first.get j).rename W.ρ).withChildren ns ∧
          List.Forall₂ (Result C m'.pieces) ((W.first.get j).rename W.ρ).children ns := by
      refine .belowM (R := fun m' c c' => Result C m'.pieces c c')
        (fun later h => h.moves later.moves) (fun c' mem m' later _ => ?_) trivial
      rw [Node.children_rename other] at mem
      obtain ⟨c, child, rfl⟩ := List.mem_map.1 mem
      have apart' (k : PieceId) (stands : W.first.Stands c k) : ¬ (still k ∨ k = j) := by
        rintro (isStill | same)
        · exact apart k (stands.inside child) isStill
        · exact stands.ne tree child same
      exact (children c child _ _ m' deep.pred apart' (later.scope inside)).mono
        fun _ _ _ _ h => ⟨trivial, h⟩
    refine lift_still (fun k => still k ∨ k = j) (fun k isStill => .inl isStill) ?_
    refine below.mono fun node m' later _ h => ⟨?_, h.2⟩
    rw [later.moves.same j met (.inr rfl), copied]
  · have below : (W.setting still).Runs F m
        (fun i => (m.pieces.get (W.ρ j)).belowM (Quote.unquote (run i) (depth i - 1)))
        fun m' node => m' = m ∧ ∃ ns, node = (m.pieces.get (W.ρ j)).withChildren ns ∧
          List.Forall₂ (Result C m'.pieces) (m.pieces.get (W.ρ j)).children ns := by
      refine .belowM (I := fun m' => m' = m) (R := fun m' c c' => Result C m'.pieces c c')
        (fun later h => h.moves later.moves) ?_ rfl
      rintro c mem m' - rfl
      refine (Calm.idle (S := W.setting still) id deep.pred (done.children c mem)).mono ?_
      rintro c' m'' - - ⟨rfl, rfl⟩
      exact ⟨rfl, done.children _ mem, .inl rfl⟩
    refine below.mono ?_
    rintro node m' - - ⟨rfl, h⟩
    exact ⟨rfl, h⟩

/-- The visit of the copy of a tree with an end comes to a result, and so do those of its children. -/
theorem visits (tree : W.first.Tree (Node.Grounded C.total) n) (met : ∀ id, n.Refers id → W.Met id) :
    W.Visits F e run n ∧ ∀ c ∈ n.children, W.Visits F e run c := by
  induction tree with
  | node other grounded _ ih =>
      have children c (mem : c ∈ _) := (ih c mem fun id refers => met id (.child mem refers)).1
      exact ⟨visits_node evaluates other grounded children, children⟩
  | @piece j compound content ih =>
      have children := (ih (W.met_closed j (met j .piece))).2
      exact ⟨visits_piece evaluates (met j .piece) (.piece compound content) children, nofun⟩

end

/-! ## Trees without end -/

/-- The visit of the copy of a tree comes to no result, if at most `depth` pieces may stand inside each
other. -/
def Never (W : Clearing C) (k : Nat) (e : ScopeId) (run : Nat → Node → Eval Value) (depth : Nat)
    (n : Node) : Prop :=
  ∀ m, C.setting.Scope m e →
    (W.setting fun _ => False).Runs (pure k) m
      (fun i => (n.rename W.ρ).transformM (Quote.unquote (run i) depth)) fun _ _ => False

section

variable {depth k : Nat} (partial_ : ¬ C.total)
  (evaluates : ∀ argument m', C.setting.Scope m' e → C.Tree m'.pieces argument →
    C.setting.Runs (pure k) m' (fun i => run i argument) C.setting.Value)
include partial_ evaluates

/-- If one of some trees has no end, the visits of all of them do not come to an end. -/
theorem never_all {nodes : List Node} (met : ∀ n ∈ nodes, ∀ id, n.Refers id → W.Met id)
    (each : ∀ n ∈ nodes, ¬ W.first.Tree (Node.Grounded C.total) n → W.Never k e run depth n)
    (endless : ∃ n ∈ nodes, ¬ W.first.Tree (Node.Grounded C.total) n)
    (inside : C.setting.Scope m e) :
    (W.setting fun _ => False).Runs (pure k) m (fun i =>
      (nodes.map (Node.rename W.ρ)).mapM (Node.transformM (Quote.unquote (run i) depth)))
      fun _ _ => False := by
  have visits_ : (W.setting fun _ => False).Runs (pure k) m
      (fun i => nodes.mapM fun n => (n.rename W.ρ).transformM (Quote.unquote (run i) depth))
      fun _ ns => True ∧ List.Forall₂ (fun n _ => W.first.Tree (Node.Grounded C.total) n) nodes ns := by
    refine .mapM (I := fun _ => True) (R := fun _ n _ => W.first.Tree (Node.Grounded C.total) n)
      (f := fun i n => (n.rename W.ρ).transformM (Quote.unquote (run i) depth))
      (fun _ h => h) (fun n mem m' later _ => ?_) trivial
    by_cases tree : W.first.Tree (Node.Grounded C.total) n
    · refine ((visits evaluates tree (met n mem)).1 _ (fun _ => depth) m' (.inr ⟨partial_, k, rfl⟩)
        (fun _ _ => not_false) (later.scope inside)).mono fun _ _ _ _ _ => ⟨trivial, tree⟩
    · exact (each n mem tree m' (later.scope inside)).mono fun _ _ _ _ h => h.elim
  refine (visits_.mono fun ns m' _ _ h => ?_).congr (.of_forall fun i => ?_)
  · obtain ⟨n, mem, endless⟩ := endless
    exact endless (Eval.Setting.forall_left h.2 (fun _ _ tree => tree) n mem)
  · rw [List.mapM_map]
    rfl

/-- The visit of the copy of a tree without end comes to no result. -/
theorem never (depth : Nat) (met : ∀ id, n.Refers id → W.Met id)
    (endless : ¬ W.first.Tree (Node.Grounded C.total) n) : W.Never k e run depth n := by
  have node {depth : Nat} {n : Node} (other : n.isPiece = false)
      (met : ∀ id, n.Refers id → W.Met id)
      (endless : ¬ W.first.Tree (Node.Grounded C.total) n)
      (each : ∀ c ∈ n.children, ¬ W.first.Tree (Node.Grounded C.total) c → W.Never k e run depth c)
      {m : Machine} (inside : C.setting.Scope m e) :
      (W.setting fun _ => False).Runs (pure k) m (fun i => (n.rename W.ρ).children.mapM
        (Node.transformM (Quote.unquote (run i) depth))) fun _ _ => False := by
    rw [Node.children_rename other]
    refine never_all partial_ evaluates (fun c mem id refers => met id (.child mem refers)) each ?_
      inside
    by_contra all
    push Not at all
    exact endless (.node other (fun isTotal => absurd isTotal partial_) all)
  -- Every piece that is met inside another one takes from the depth.
  induction depth generalizing n with
  | zero =>
    induction n using Node.childInduction with
    | step n ih =>
      cases isPiece : n.isPiece with
      | false =>
          intro m inside
          have below := node isPiece met endless
            (fun c mem => ih c mem fun id refers => met id (.child mem refers)) inside
          simp only [Node.transformM_eq]
          exact below.bind fun _ _ _ _ h => h.elim
      | true =>
          obtain ⟨j, rfl⟩ := Node.eq_piece_of_isPiece isPiece
          intro m inside
          have halts : (W.setting fun _ => False).AtExit m (.halted .overflow) :=
            fun isTotal => absurd isTotal partial_
          exact .throw halts
  | succ depth ihDepth =>
    induction n using Node.childInduction with
    | step n ih =>
      cases isPiece : n.isPiece with
      | false =>
          intro m inside
          have below := node isPiece met endless
            (fun c mem => ih c mem fun id refers => met id (.child mem refers)) inside
          simp only [Node.transformM_eq]
          exact below.bind fun _ _ _ _ h => h.elim
      | true =>
          obtain ⟨j, rfl⟩ := Node.eq_piece_of_isPiece isPiece
          intro m inside
          refine .of_sound fun sound => ?_
          have isMet := met j .piece
          have compound := (W.solid partial_ j (W.met_inside j isMet)).1
          rcases sound.pieces.pieces j isMet with copied | ⟨-, tree⟩
          case inr => exact absurd tree endless
          have below := node (Pieces.isPiece_of_isCompound compound) (W.met_closed j isMet)
            (fun content => endless (.piece compound content))
            (fun c mem => ihDepth fun id refers => W.met_closed j isMet id (.child mem refers)) inside
          refine (below.bind (f := fun i ns => (do
            Eval.setPiece (W.ρ j) (((W.first.get j).rename W.ρ).withChildren ns)
            return (← Quote.substitute? (run i)
              (((W.first.get j).rename W.ρ).withChildren ns)).getD (.piece (W.ρ j)))) ?_).congr
              (.of_forall fun i => ?_)
          · exact fun _ _ _ _ h => h.elim
          · rw [Node.rename_piece, Quote.transformM_unquote_piece, copied, Node.belowM_eq]
            simp

end

end Clearing

end MonkeyLang
