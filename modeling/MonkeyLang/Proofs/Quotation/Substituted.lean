import MonkeyLang.Proofs.Quotation.Apart
import MonkeyLang.Proofs.Quotation.Signals

/-!
# The rewriting of a copy is substitution

The calls of `unquote` in a copy are replaced by substitution: in its order each argument is evaluated
once, and nothing else is, until one of them cannot be replaced.

* `Quote.Evaluations` follows the machine through the evaluations of the arguments, `Quote.Fails` says
  how the last one fails.
* `Rewriting.visits` is the result for some trees of the copy.
-/

namespace MonkeyLang

/-- The node takes the place of a call whose argument has come to the value: a literal of the value,
or the tree that it quotes. -/
inductive Value.Denotes : Value → Node → Prop
  | int {t : Option Token} {k : Int} : Denotes (.int k) (.int t k)
  | bool {t : Option Token} {b : Bool} {i : Instance} : Denotes (.bool b i) (.bool t b)
  | quote {serial : Nat} {node : Node} : Denotes (.quote serial node) node

/-- Nothing can take the place of a call whose argument has come to the value. -/
inductive Value.Refused : Value → Exit → Prop
  | fault {fault : Fault} : Refused (.error fault) (.failed fault)
  | kind {v : Value} : v.kind ∉ [.integer, .boolean, .quote, .error] →
    Refused v (.failed (.notQuotable v.kind))
  | overlong {k : Int} : Decimal.isOverlong k = true → Refused (.int k) (.halted .overlong)

namespace Quote

theorem denotes_of_literal {v : Value} {new : Node} (h : literal v = .ok new) : v.Denotes new := by
  unfold literal at h
  split at h
  · next b _ =>
      cases h
      cases b <;> exact .bool
  · split at h
    · cases h
      exact .int
    · cases h
  · cases h
    exact .quote
  · cases h
  · cases h

theorem refused_of_literal {v : Value} {exit : Exit} (h : literal v = .error exit) :
    v.Refused exit := by
  cases v with
  | int k =>
      unfold literal Decimal.write? at h
      dsimp only at h
      cases overlong : Decimal.isOverlong k with
      | true =>
          rw [overlong] at h
          cases h
          exact .overlong overlong
      | false =>
          rw [overlong] at h
          cases h
  | bool | quote => cases h
  | error =>
      cases h
      exact .fault
  | _ =>
      cases h
      exact .kind (by simp [Value.kind])

/-- A literal of a value is one in every scope. -/
theorem evaluate_of_denotes {v : Value} {new : Node} (h : v.Denotes new)
    (literal : v.kind ≠ .quote) (ordinary : v.isOrdinary = true) (depth : Nat) (scope : ScopeId)
    (m : Machine) : (evaluate (depth + 1) new scope).run m = .ok v m := by
  cases h with
  | int => rfl
  | bool =>
      rw [Value.eq_shared_of_bool ordinary]
      rfl
  | quote => exact absurd rfl literal

variable {run : Node → Eval Value} {own : PieceId → Prop} {m m₁ m₂ : Machine}
  {rs rs' : Replacements}

/-- The arguments are evaluated one after the other, and what takes the place of a call denotes the
value. In between none but own pieces change. -/
inductive Evaluations (run : Node → Eval Value) (own : PieceId → Prop) :
    Machine → Replacements → Machine → Prop
  | nil {m : Machine} : Evaluations run own m [] m
  | rewrite {m m' : Machine} {p : Pieces} {rs : Replacements} : p.nextId = m.pieces.nextId →
    (∀ id, ¬ own id → p.get id = m.pieces.get id) →
    Evaluations run own { m with pieces := p } rs m' → Evaluations run own m rs m'
  | evaluate {m m₁ m' : Machine} {node argument new : Node} {v : Value} {rs : Replacements} :
    m.pieces.Shows own [node] [argument] → (run node).run m = .ok v m₁ → v.Denotes new →
    Evaluations run own m₁ rs m' → Evaluations run own m ((argument, new) :: rs) m'

theorem Evaluations.append (first : Evaluations run own m rs m₁)
    (later : Evaluations run own m₁ rs' m₂) : Evaluations run own m (rs ++ rs') m₂ := by
  induction first with
  | nil => exact later
  | rewrite size same _ ih => exact .rewrite size same (ih later)
  | evaluate shows_ ran denotes _ ih => exact .evaluate shows_ ran denotes (ih later)

/-- A call of `unquote` with these arguments cannot be replaced: how many there are, how the evaluation
ends, or what it comes to, is the reason. -/
inductive Fails (run : Node → Eval Value) (own : PieceId → Prop) :
    Machine → List Node → Exit → Machine → Prop
  | arity {m : Machine} {arguments : List Node} : arguments.length ≠ 1 →
    Fails run own m arguments (.failed (.unquoteArity arguments.length)) m
  | exits {m m' : Machine} {node argument : Node} {exit : Exit} :
    m.pieces.Shows own [node] [argument] → (run node).run m = .error exit m' →
    Fails run own m [argument] exit.inQuotation m'
  | refused {m m' : Machine} {node argument : Node} {v : Value} {exit : Exit} :
    m.pieces.Shows own [node] [argument] → (run node).run m = .ok v m' →
    v.Refused exit → Fails run own m [argument] exit m'

theorem run_splice (run : Node → Eval Value) (argument : Node) (m : Machine) :
    (splice run [argument]).run m =
      match (run argument).run m with
      | .ok v m' =>
        match literal v with
        | .ok n => .ok n m'
        | .error exit => .error exit m'
      | .error exit m' => .error exit.inQuotation m' := by
  cases ran : (run argument).run m with
  | error exit m' => exact run_splice_of_exit ran
  | ok v m' =>
      have found : (unquoted run argument).run m = .ok v m' := by
        rw [unquoted, run_tryCatch, ran]
      refine (run_bind_of_ok found).trans ?_
      dsimp only
      cases literal v <;> rfl

end Quote

namespace Rewriting

open Quote (Substitutes Stops Evaluations Fails Replacements)

variable {W : Rewriting} {m m₁ m' : Machine} {e : ScopeId} {n w : Node} {nodes ws : List Node}
  {ids ids' : List PieceId} {d depth : Nat} {run : Node → Eval Value}

/-- All calls in some trees of the copy have been replaced. -/
structure Done (W : Rewriting) (run : Node → Eval Value) (d : Nat) (ids : List PieceId)
    (ws : List Node) (m : Machine) (nodes' : List Node) (m' : Machine) : Prop where
  ready : W.Ready m'
  nextId_le : m.pieces.nextId ≤ m'.pieces.nextId
  refers : ∀ n ∈ nodes', ∀ id, n.Refers id → id < m'.pieces.nextId
  becomes : ∃ rs trees ids', Substitutes ws rs trees ∧ Evaluations run W.own m rs m' ∧
    ids' ⊆ ids ∧ m'.pieces.Unfolds W.own W.still d nodes' ids' trees
  /-- None but the listed pieces of the copy have changed. -/
  same : ∀ id, W.own id → id ∉ ids → m'.pieces.get id = m.pieces.get id

/-- The rewriting has stopped at a call that cannot be replaced. -/
structure Stopped (W : Rewriting) (run : Node → Eval Value) (ws : List Node) (m : Machine)
    (exit : Exit) (m' : Machine) : Prop where
  ready : W.Ready m'
  stops : ∃ rs arguments m₁, Stops ws rs arguments ∧ Evaluations run W.own m rs m₁ ∧
    Fails run W.own m₁ arguments exit m'

/-- How the visit of some trees ends. -/
def Ended (W : Rewriting) (run : Node → Eval Value) (d : Nat) (ids : List PieceId) (ws : List Node)
    (m : Machine) : EStateM.Result Exit Machine (List Node) → Prop
  | .ok nodes' m' => W.Done run d ids ws m nodes' m'
  | .error exit m' => W.Stopped run ws m exit m'

/-- How the visit of one tree ends. -/
def EndedOne (W : Rewriting) (run : Node → Eval Value) (d : Nat) (ids : List PieceId) (w : Node)
    (m : Machine) : EStateM.Result Exit Machine Node → Prop
  | .ok n' m' => W.Done run d ids [w] m [n'] m'
  | .error exit m' => W.Stopped run [w] m exit m'

theorem stops_cons {rs : Replacements} {arguments : List Node} (stops : Stops [w] rs arguments) :
    Stops (w :: ws) rs arguments := by
  cases stops with
  | here below call => exact .here below call
  | inside below => exact .inside below
  | later _ none => cases none

/-- A tree is visited, and then the others, in which there are other pieces. -/
theorem Ended.cons {f : Node → Eval Node} (apart : ∀ id ∈ ids, id ∉ ids')
    (own : ∀ id ∈ ids, W.own id ∧ ¬ W.still id)
    (first : W.EndedOne run d ids w m ((f n).run m))
    (later : ∀ m₁, W.Ready m₁ → m.pieces.nextId ≤ m₁.pieces.nextId →
      (∀ id, W.own id → id ∉ ids → m₁.pieces.get id = m.pieces.get id) →
      W.Ended run d ids' ws m₁ ((nodes.mapM f).run m₁)) :
    W.Ended run d (ids ++ ids') (w :: ws) m (((n :: nodes).mapM f).run m) := by
  rw [List.mapM_cons]
  cases ran : (f n).run m with
  | error exit m₁ =>
      rw [ran] at first
      rw [run_bind_of_exit ran]
      obtain ⟨rs, arguments, m₂, stops, evaluations, fails⟩ := first.stops
      exact ⟨first.ready, rs, arguments, m₂, stops_cons stops, evaluations, fails⟩
  | ok n' m₁ =>
      rw [ran] at first
      rw [run_bind_of_ok ran]
      have rest := later m₁ first.ready first.nextId_le first.same
      obtain ⟨rs, trees, listed, becomes, evaluations, subset, unfolds⟩ := first.becomes
      have length_eq := becomes.length_eq
      obtain ⟨tree, rfl⟩ : ∃ tree, trees = [tree] := List.length_eq_one_iff.1 length_eq
      cases ran' : (nodes.mapM f).run m₁ with
      | error exit m₂ =>
          rw [ran'] at rest
          rw [run_bind_of_exit ran']
          obtain ⟨rs', arguments, m₃, stops, evaluations', fails⟩ := rest.stops
          exact ⟨rest.ready, rs ++ rs', arguments, m₃, .later becomes stops,
            evaluations.append evaluations', fails⟩
      | ok nodes' m₂ =>
          rw [ran'] at rest
          rw [run_bind_of_ok ran']
          obtain ⟨rs', trees', listed', becomes', evaluations', subset', unfolds'⟩ := rest.becomes
          have kept : m₂.pieces.Unfolds W.own W.still d [n'] listed [tree] := by
            refine unfolds.of_same (fun id mem => ?_) fun id isStill => ?_
            · exact rest.same id (own id (subset mem)).1 (apart id (subset mem))
            · exact (rest.ready.still id isStill).trans (first.ready.still id isStill).symm
          refine ⟨rest.ready, Nat.le_trans first.nextId_le rest.nextId_le, ?_, ?_, fun id isOwn none => ?_⟩
          · refine List.forall_mem_cons.2 ⟨fun id refers => ?_, rest.refers⟩
            exact Nat.lt_of_lt_of_le (first.refers n' (.head _) id refers) rest.nextId_le
          · exact ⟨rs ++ rs', tree :: trees', listed ++ listed', becomes.cons becomes',
              evaluations.append evaluations',
              List.append_subset.2 ⟨List.subset_append_of_subset_left _ subset,
                List.subset_append_of_subset_right _ subset'⟩, kept.cons unfolds'⟩
          · rw [List.mem_append, not_or] at none
            exact (rest.same id isOwn none.2).trans (first.same id isOwn none.1)

/-! ## The visit of a node -/

/-- How the visit of a node ends when its children have been visited, and it is shown as `tree` by
then. If it is no call, `stays` stands in its place. -/
def Turned (W : Rewriting) (run : Node → Eval Value) (tree stays : Node) (m : Machine) :
    EStateM.Result Exit Machine Node → Prop
  | .ok n' m' => (tree.unquotes? = none ∧ n' = stays ∧ m' = m) ∨
      ∃ argument, tree.unquotes? = some [argument] ∧ Evaluations run W.own m [(argument, n')] m' ∧
        W.Ready m' ∧ W.Later m m' ∧ ∀ id, n'.Refers id → id < m'.pieces.nextId ∧ ¬ W.kept id
  | .error exit m' => W.Ready m' ∧
      ∃ arguments, tree.unquotes? = some arguments ∧ Fails run W.own m arguments exit m'

/-- The run leaves the kept pieces alone, and ends with a value that does not refer to them. -/
def Safe (W : Rewriting) (run : Node → Eval Value) : Prop :=
  ∀ m n, W.Ready m → (∀ id, n.Refers id → id < m.pieces.nextId) →
    match (run n).run m with
    | .ok v m' => (W.Ready m' ∧ W.Later m m') ∧ v.Fits (W.limits m')
    | .error _ m' => W.Ready m' ∧ W.Later m m'

theorem Turned.of_call (safe : W.Safe run) (ready : W.Ready m) {arguments trees : List Node}
    {tree stays : Node} (refers : ∀ n ∈ arguments, ∀ id, n.Refers id → id < m.pieces.nextId)
    (shown : m.pieces.Shows W.own arguments trees) (call : tree.unquotes? = some trees) :
    W.Turned run tree stays m ((Quote.splice run arguments).run m) := by
  have wrong (count : trees.length ≠ 1) :
      W.Turned run tree stays m (.error (.failed (.unquoteArity trees.length)) m) :=
    ⟨ready, trees, call, .arity count⟩
  match arguments with
  | [] | _ :: _ :: _ =>
      have length_eq := shown.length_eq
      have result := wrong (by simp [length_eq])
      rw [length_eq] at result
      exact result
  | [node] =>
      obtain ⟨argument, rfl⟩ := List.length_eq_one_iff.1 shown.length_eq
      have ended := safe m node ready (refers node (.head _))
      rw [Quote.run_splice]
      cases ran : (run node).run m with
      | error exit m' =>
          rw [ran] at ended
          exact ⟨ended.1, [argument], call, .exits shown ran⟩
      | ok v m' =>
          rw [ran] at ended
          obtain ⟨⟨ready', later⟩, fits⟩ := ended
          dsimp only
          cases denotes : Quote.literal v with
          | error exit =>
              exact ⟨ready', [argument], call, .refused shown ran (Quote.refused_of_literal denotes)⟩
          | ok new =>
              have evaluates := Evaluations.nil.evaluate shown ran (Quote.denotes_of_literal denotes)
              exact .inr ⟨argument, call, evaluates, ready', later,
                fun _ refers => literal_refers fits denotes refers⟩

theorem Turned.node (safe : W.Safe run) (ready : W.Ready m) {tree stays : Node}
    (other : n.isPiece = false) (refers : ∀ id, n.Refers id → id < m.pieces.nextId)
    (shown : m.pieces.Shows W.own [n] [tree]) :
    W.Turned run tree stays m
      ((do return (← Quote.substitute? run n).getD stays : Eval Node).run m) := by
  obtain ⟨none, some_⟩ := shown.unquotes? other
  cases unquotes : n.unquotes? with
  | none =>
      rw [Quote.substitute?_of_none _ unquotes]
      exact .inl ⟨none unquotes, rfl, rfl⟩
  | some arguments =>
      obtain ⟨trees, call, shownArguments⟩ := some_ arguments unquotes
      obtain ⟨t, u, rfl⟩ := Node.eq_call_of_unquotes? unquotes
      rw [Quote.substitute?_call, map_eq_pure_bind, bind_assoc]
      refine cast (congrArg (W.Turned run tree stays m)
        (congrFun (bind_pure (Quote.splice run arguments)) m).symm) ?_
      exact .of_call safe ready (fun n mem id inside => refers id (.child (.tail _ mem) inside))
        shownArguments call

/-- The visit of a node that is shown as `w` ends so when those below it have been visited. -/
theorem Turned.ended {trees : List Node} {rs : Replacements} (ready : W.Ready m₁)
    (nextId_le : m.pieces.nextId ≤ m₁.pieces.nextId)
    (refers : ∀ id, n.Refers id → id < m₁.pieces.nextId)
    (becomes : Substitutes w.children rs trees) (evaluations : Evaluations run W.own m rs m₁)
    (same : ∀ id, W.own id → id ∉ ids → m₁.pieces.get id = m.pieces.get id)
    (fewer : ids' ⊆ ids)
    (unfolds : m₁.pieces.Unfolds W.own W.still d [n] ids' [w.withChildren trees])
    {r : EStateM.Result Exit Machine Node} (turned : W.Turned run (w.withChildren trees) n m₁ r) :
    W.EndedOne run d ids w m r := by
  cases r with
  | error exit m' =>
      obtain ⟨ready', arguments, call, fails⟩ := turned
      exact ⟨ready', rs, arguments, m₁, .here becomes call, evaluations, fails⟩
  | ok n' m' =>
      rcases turned with ⟨none, rfl, rfl⟩ | ⟨argument, call, evaluates, ready', later, apart⟩
      · refine ⟨ready, nextId_le, List.forall_mem_singleton.2 refers, ?_, same⟩
        exact ⟨rs, _, ids', becomes.one_stays none, evaluations, fewer, unfolds⟩
      · refine ⟨ready', Nat.le_trans nextId_le later.nextId_le,
          List.forall_mem_singleton.2 fun id refers => (apart id refers).1, ?_,
          fun id isOwn none => (later.kept id (W.own_kept id isOwn)).trans (same id isOwn none)⟩
        refine ⟨_, _, [], becomes.one_replaced call, evaluations.append evaluates,
          List.nil_subset _, .self (List.forall_mem_singleton.2 fun id refers isOwn => ?_)⟩
        exact (apart id refers).2 (W.own_kept id isOwn)

/-- All calls below a node of the copy have been replaced. The node is shown as `w`. -/
structure DoneBelow (W : Rewriting) (run : Node → Eval Value) (d : Nat) (ids : List PieceId)
    (w : Node) (m : Machine) (compound : Bool) (n' : Node) (m' : Machine) : Prop where
  ready : W.Ready m'
  nextId_le : m.pieces.nextId ≤ m'.pieces.nextId
  other : n'.isPiece = false
  isCompound : n'.isCompound = compound
  refers : ∀ id, n'.Refers id → id < m'.pieces.nextId
  becomes : ∃ rs trees ids', Substitutes w.children rs trees ∧ Evaluations run W.own m rs m' ∧
    ids' ⊆ ids ∧ m'.pieces.Unfolds W.own W.still d n'.children ids' trees ∧
    n'.withChildren trees = w.withChildren trees
  same : ∀ id, W.own id → id ∉ ids → m'.pieces.get id = m.pieces.get id

/-- How the visit of the nodes below a node ends. -/
def EndedBelow (W : Rewriting) (run : Node → Eval Value) (d : Nat) (ids : List PieceId) (w : Node)
    (m : Machine) (compound : Bool) : EStateM.Result Exit Machine Node → Prop
  | .ok n' m' => W.DoneBelow run d ids w m compound n' m'
  | .error exit m' => W.Stopped run [w] m exit m'

theorem EndedBelow.of_children {f : Node → Eval Node} (other : n.isPiece = false)
    (same : ws.length = n.children.length)
    (below : W.Ended run d ids ws m ((n.children.mapM (Node.transformM f)).run m)) :
    W.EndedBelow run d ids (n.withChildren ws) m n.isCompound ((n.belowM f).run m) := by
  have children := Node.children_withChildren same
  rw [Node.belowM_eq, ← bind_pure_comp]
  cases ran : (n.children.mapM (Node.transformM f)).run m with
  | error exit m₁ =>
      rw [ran] at below
      rw [run_bind_of_exit ran]
      obtain ⟨rs, arguments, m₂, stops, evaluations, fails⟩ := below.stops
      exact ⟨below.ready, rs, arguments, m₂, .inside (children.symm ▸ stops), evaluations, fails⟩
  | ok nodes' m₁ =>
      rw [ran] at below
      rw [run_bind_of_ok ran]
      obtain ⟨rs, trees, ids', becomes, evaluations, fewer, unfolds⟩ := below.becomes
      have length_eq : nodes'.length = n.children.length :=
        unfolds.length_eq.symm.trans (becomes.length_eq.trans same)
      have rebuilt (ns : List Node) (same' : ns.length = n.children.length) :
          (n.withChildren ns).withChildren trees = n.withChildren trees :=
        Node.withChildren_withChildren same' (becomes.length_eq.trans same)
      refine ⟨below.ready, below.nextId_le, ?_, n.isCompound_withChildren nodes',
        fun id refers => ?_, ⟨rs, trees, ids', children.symm ▸ becomes, evaluations, fewer, ?_, ?_⟩,
        below.same⟩
      · rw [Node.isPiece_withChildren, other]
      · obtain ⟨c, mem, inside⟩ := (Node.refers_withChildren other length_eq).1 refers
        exact below.refers c mem id inside
      · rwa [Node.children_withChildren length_eq]
      · rw [rebuilt nodes' length_eq, rebuilt ws same]

/-- A node is visited when all below it has been. -/
theorem EndedOne.node (safe : W.Safe run) {compound : Bool}
    (below : W.EndedBelow run d ids w m compound ((n.belowM (Quote.unquote run depth)).run m)) :
    W.EndedOne run d ids w m ((n.transformM (Quote.unquote run depth)).run m) := by
  rw [Node.transformM]
  cases ran : (n.belowM (Quote.unquote run depth)).run m with
  | error exit m₁ =>
      rw [ran] at below
      rwa [run_bind_of_exit ran]
  | ok n' m₁ =>
      rw [ran] at below
      rw [run_bind_of_ok ran, Eval.Setting.giveM_unquote below.other]
      obtain ⟨rs, trees, ids', becomes, evaluations, fewer, unfolds, rebuilt⟩ := below.becomes
      have whole : m₁.pieces.Unfolds W.own W.still d [n'] ids' [w.withChildren trees] :=
        rebuilt ▸ unfolds.above below.other
      exact Turned.ended below.ready below.nextId_le below.refers becomes evaluations below.same fewer
        whole (.node safe below.ready below.other below.refers whole.shows_)

/-- A piece of the copy is visited when all in it has been, and it has been changed. -/
theorem EndedOne.piece {id : PieceId} (safe : W.Safe run) (isOwn : W.own id) (moving : ¬ W.still id)
    (fresh : id ∉ ids) (inside : id < m.pieces.nextId)
    (below : W.EndedBelow run d ids w m true
      (((m.pieces.get id).belowM (Quote.unquote run depth)).run m)) :
    W.EndedOne run (d + 1) (id :: ids) w m
      (((Node.piece id).transformM (Quote.unquote run (depth + 1))).run m) := by
  rw [Quote.transformM_unquote_piece]
  cases ran : ((m.pieces.get id).belowM (Quote.unquote run depth)).run m with
  | error exit m₁ =>
      rw [ran] at below
      rwa [run_bind_of_exit ran]
  | ok n' m₁ =>
      rw [ran] at below
      obtain ⟨rs, trees, ids', becomes, evaluations, fewer, unfolds, rebuilt⟩ := below.becomes
      have set : (Eval.setPiece id n').run m₁ =
          .ok () { m₁ with pieces := m₁.pieces.set id n' } := rfl
      rw [run_bind_of_ok ran, run_bind_of_ok set]
      have ready := below.ready.set isOwn moving below.isCompound below.refers
      have nextId_eq := Pieces.nextId_set m₁.pieces id n'
      have other_eq {other : PieceId} (differ : other ≠ id) :
          (m₁.pieces.set id n').get other = m₁.pieces.get other := by
        rw [Pieces.get_set, if_neg fun both => differ both.1.symm]
      have here : (m₁.pieces.set id n').get id = n' := by
        rw [Pieces.get_set, if_pos ⟨rfl, Nat.lt_of_lt_of_le inside below.nextId_le⟩]
      generalize m₁.pieces.set id n' = p at ready nextId_eq other_eq here ⊢
      subst here
      have content : p.Unfolds W.own W.still d (p.get id).children ids' trees :=
        unfolds.of_same (fun other mem => other_eq fun same => fresh (same ▸ fewer mem))
          fun other isStill => other_eq fun same => moving (same ▸ isStill)
      have refers (other : PieceId) (refers : (p.get id).Refers other) : other < p.nextId :=
        nextId_eq ▸ below.refers other refers
      have shown : p.Shows W.own [p.get id] [w.withChildren trees] :=
        rebuilt ▸ (content.above below.other).shows_
      have place : p.Unfolds W.own W.still (d + 1) [.piece id] (id :: ids' ++ [])
          [(p.get id).withChildren trees] := .piece isOwn moving below.isCompound content .nil
      rw [List.append_nil, rebuilt] at place
      have changed : Evaluations run W.own m₁ [] { m₁ with pieces := p } :=
        .rewrite nextId_eq (fun other notOwn => other_eq fun same => notOwn (same ▸ isOwn)) .nil
      have evaluations' := evaluations.append changed
      rw [List.append_nil] at evaluations'
      refine Turned.ended ready (nextId_eq ▸ below.nextId_le) (fun other refers => ?_) becomes
        evaluations' (fun other isOwn' none => ?_) (List.cons_subset_cons id fewer) place
        (.node safe ready below.other refers shown)
      · rw [Node.refers_piece_iff.1 refers, nextId_eq]
        exact Nat.lt_of_lt_of_le inside below.nextId_le
      · rw [List.mem_cons, not_or] at none
        exact (other_eq none.1).trans (below.same other isOwn' none.2)

/-! ## The visit of trees -/

/-- A node is shown as a tree without calls of `unquote` only if it is no call. -/
theorem calm_of_shows {p : Pieces} {own : PieceId → Prop} (other : n.isPiece = false)
    (shown : p.Shows own n.children ws)
    (calm : (n.withChildren ws).Everywhere fun n => n.unquotes? = none) :
    n.unquotes? = none ∧ ∀ w ∈ ws, w.Everywhere fun n => n.unquotes? = none := by
  cases calm with
  | mk none below =>
    rw [Node.children_withChildren shown.length_eq] at below
    refine ⟨?_, below⟩
    cases unquotes : n.unquotes? with
    | none => rfl
    | some arguments =>
        have whole : p.Shows own [n] [n.withChildren ws] := .node other shown .nil
        obtain ⟨trees, call, -⟩ := (whole.unquotes? other).2 arguments unquotes
        cases none.symm.trans call

/-- Where there is no call of `unquote`, nothing happens. -/
theorem idle (ready : W.Ready m) (h : W.first.Unfolds (fun _ => True) W.still d nodes ids ws)
    (empty : ids = []) (shallow : d ≤ depth)
    (calm : ∀ w ∈ ws, w.Everywhere fun n => n.unquotes? = none) :
    ∀ n ∈ nodes, (n.transformM (Quote.unquote run depth)).run m = .ok n m := by
  induction h generalizing depth with
  | nil => exact nofun
  | node other below _ ihBelow ihLater =>
      obtain ⟨rfl, rfl⟩ := List.append_eq_nil_iff.1 empty
      obtain ⟨here, calmLater⟩ := List.forall_mem_cons.1 calm
      obtain ⟨none, calmBelow⟩ := calm_of_shows other below.shows_ here
      have ran := run_mapM_of_idle (ihBelow rfl shallow calmBelow)
      refine List.forall_mem_cons.2 ⟨?_, ihLater rfl shallow calmLater⟩
      rw [Node.transformM_eq, run_bind_of_ok ran, Node.withChildren_children,
        Eval.Setting.giveM_unquote other, Quote.substitute?_of_none _ none]
      rfl
  | piece => cases empty
  | @still d id _ _ _ _ _ isStill compound below here _ ihBelow ihLater =>
      obtain ⟨depth, rfl⟩ := Nat.exists_eq_add_of_le' (Nat.le_trans (Nat.succ_le_succ d.zero_le) shallow)
      obtain ⟨none, calmBelow⟩ :=
        calm_of_shows (Pieces.isPiece_of_isCompound compound) below.shows_ here
      have ran := run_mapM_of_idle (ihBelow rfl (Nat.le_of_succ_le_succ shallow) calmBelow)
      refine List.forall_mem_cons.2 ⟨?_, ihLater empty shallow (List.forall_mem_cons.1 calm).2⟩
      have kept : (Eval.setPiece id (m.pieces.get id)).run m = .ok () m :=
        congrArg (fun p => EStateM.Result.ok () ({ m with pieces := p } : Machine))
          (Calm.set_get m.pieces id)
      rw [ready.still id isStill] at kept
      rw [Quote.transformM_unquote_piece, ready.still id isStill, Node.belowM_eq, ← bind_pure_comp,
        bind_assoc, run_bind_of_ok ran, pure_bind, Node.withChildren_children, run_bind_of_ok kept,
        Quote.substitute?_of_none _ none]
      rfl
  | other notOwn => exact absurd trivial notOwn

/-- A piece without calls of `unquote` stays what it is. -/
theorem EndedOne.still {id : PieceId} (ready : W.Ready m) (isStill : W.still id)
    (compound : (W.first.get id).isCompound = true)
    (below : W.first.Unfolds (fun _ => True) W.still d (W.first.get id).children [] ws)
    (calm : ((W.first.get id).withChildren ws).Everywhere fun n => n.unquotes? = none)
    (shallow : d + 1 ≤ depth) :
    W.EndedOne run (d + 1) [] ((W.first.get id).withChildren ws) m
      (((Node.piece id).transformM (Quote.unquote run depth)).run m) := by
  have whole : W.first.Unfolds (fun _ => True) W.still (d + 1) [.piece id] []
      [(W.first.get id).withChildren ws] := .still trivial isStill compound below calm .nil
  have all := List.forall_mem_singleton.2 calm
  rw [idle ready whole rfl shallow all _ (.head _)]
  refine ⟨ready, Nat.le_refl _, List.forall_mem_singleton.2 fun other refers => ?_,
    ⟨[], _, [], .refl all, .nil, List.Subset.refl _, ?_⟩, fun _ _ _ => rfl⟩
  · rw [Node.refers_piece_iff.1 refers]
    exact Nat.lt_of_lt_of_le (Pieces.lt_nextId_of_isCompound compound) ready.nextId_le
  · exact (whole.narrow nofun W.still_own).of_same nofun ready.still

/-- In trees of the copy all calls are replaced from left to right, and inner ones before outer ones,
until one cannot be. -/
theorem visits (safe : W.Safe run) (h : W.first.Unfolds (fun _ => True) W.still d nodes ids ws)
    (once : ids.Nodup) (own : ∀ id ∈ ids, W.own id) (ready : W.Ready m)
    (same : ∀ id ∈ ids, m.pieces.get id = W.first.get id) (shallow : d ≤ depth) :
    W.Ended run d ids ws m ((nodes.mapM (Node.transformM (Quote.unquote run depth))).run m) := by
  have moving {d : Nat} {nodes ws : List Node} {ids : List PieceId}
      (h : W.first.Unfolds (fun _ => True) W.still d nodes ids ws) (own : ∀ id ∈ ids, W.own id) :
      ∀ id ∈ ids, W.own id ∧ ¬ W.still id := fun id mem => ⟨own id mem, (h.mem id mem).2⟩
  induction h generalizing depth m with
  | nil =>
      exact ⟨ready, Nat.le_refl _, nofun, ⟨[], [], [], .nil, .nil, List.Subset.refl _, .nil⟩,
        fun _ _ _ => rfl⟩
  | node other below later ihBelow ihLater =>
      obtain ⟨onceBelow, onceLater, apart⟩ := List.nodup_append'.1 once
      obtain ⟨ownBelow, ownLater⟩ := List.forall_mem_append.1 own
      obtain ⟨sameBelow, sameLater⟩ := List.forall_mem_append.1 same
      refine Ended.cons apart (moving below ownBelow)
        (.node safe (.of_children other below.length_eq
          (ihBelow onceBelow ownBelow ready sameBelow shallow))) fun m₁ ready₁ _ same₁ => ?_
      exact ihLater onceLater ownLater ready₁ (fun id mem => (same₁ id (ownLater id mem)
        fun mem' => apart mem' mem).trans (sameLater id mem)) shallow
  | @piece d id _ ws _ ids _ _ isMoving compound below later ihBelow ihLater =>
      obtain ⟨depth, rfl⟩ := Nat.exists_eq_add_of_le' (Nat.le_trans (Nat.succ_le_succ d.zero_le) shallow)
      obtain ⟨onceHere, onceLater, apart⟩ := List.nodup_append'.1 once
      obtain ⟨fresh, onceBelow⟩ := List.nodup_cons.1 onceHere
      obtain ⟨ownHere, ownLater⟩ := List.forall_mem_append.1 own
      obtain ⟨isOwn, ownBelow⟩ := List.forall_mem_cons.1 ownHere
      obtain ⟨sameHere, sameLater⟩ := List.forall_mem_append.1 same
      obtain ⟨content, sameBelow⟩ := List.forall_mem_cons.1 sameHere
      have ended := ihBelow onceBelow ownBelow ready sameBelow (Nat.le_of_succ_le_succ shallow)
      have other := Pieces.isPiece_of_isCompound compound
      have visited := EndedBelow.of_children other below.length_eq ended
      rw [compound] at visited
      have inside : id < m.pieces.nextId :=
        Nat.lt_of_lt_of_le (Pieces.lt_nextId_of_isCompound compound) ready.nextId_le
      refine Ended.cons apart (List.forall_mem_cons.2 ⟨⟨isOwn, isMoving⟩, moving below ownBelow⟩)
        (.piece safe isOwn isMoving fresh inside (content.symm ▸ visited)) fun m₁ ready₁ _ same₁ => ?_
      exact ihLater onceLater ownLater ready₁ (fun id mem => (same₁ id (ownLater id mem)
        fun mem' => apart mem' mem).trans (sameLater id mem)) shallow
  | @still d id _ ws ws' ids' _ isStill compound below calm _ _ ihLater =>
      change W.Ended run (d + 1) ([] ++ ids') ((W.first.get id).withChildren ws :: ws') m _
      exact Ended.cons nofun nofun (.still ready isStill compound below calm shallow)
        fun m₁ ready₁ _ same₁ => ihLater once own ready₁
          (fun id mem => (same₁ id (own id mem) nofun).trans (same id mem)) shallow
  | other notOwn => exact absurd trivial notOwn

end Rewriting

end MonkeyLang
