import MonkeyLang.Proofs.Expansion.Course
import MonkeyLang.Session

/-!
# An expansion reaches every call

Each node of a program is visited when all below it has been, so that a call of a macro is replaced
wherever it stands, and also if it has become one only by a replacement below it. What is left in the
program are nodes that call no macro, and nodes that macros have handed back. If there is no call in
the latter, there is none anywhere, and a second expansion has nothing to do. It still walks through
the program, and does not come to an end where a piece stands inside itself.

* `Pieces.Contains` says which nodes stand in a tree, also in its pieces.
* `Machine.CallsNone` says that none of them calls a macro.
* `expandInside` expands a program with pieces in it. `Expansion.run_expandInside_of_none` says what it
  does where no macro is called.
* `expand_reaches_every_call` is the result.
* `expand_hands_back_endless_program` is about a program that cannot be expanded again.
-/

namespace MonkeyLang

/-- The node stands in the tree, perhaps inside pieces. -/
inductive Pieces.Contains (p : Pieces) : Node → Node → Prop
  | self {n : Node} : Contains p n n
  | child {n c x : Node} : c ∈ n.children → Contains p c x → Contains p n x
  | piece {id : PieceId} {x : Node} : Contains p (p.get id) x → Contains p (.piece id) x

/-- No node in the tree calls a macro. -/
def Machine.CallsNone (m : Machine) (e : ScopeId) (n : Node) : Prop :=
  ∀ x, m.pieces.Contains n x → m.store.macroFor? e x = none

namespace Pieces

variable {p p' : Pieces} {ok ok' : Node → Prop} {n x w : Node} {d : Nat}

/-- What stands in a tree stood in it before if no piece has changed that was there. -/
theorem Contains.of_extends (h : p'.Contains n x) (solid : p.Solid)
    (inside : ∀ id, n.Refers id → id < p.nextId) (more : p.Extends p') : p.Contains n x := by
  induction h with
  | self => exact .self
  | child mem _ ih => exact .child mem (ih fun id refers => inside id (.child mem refers))
  | piece _ ih =>
      have here := inside _ .piece
      rw [more.get_eq _ here] at ih
      exact .piece (ih (solid _ here).2)

theorem everywhere_of_contains (h : ∀ x, p.Contains n x → ok x) : n.Everywhere ok := by
  induction n using Node.childInduction with
  | step n ih => exact .mk (h n .self) fun c mem => ih c mem fun x within => h x (.child mem within)

namespace Tree

theorem of_contains (h : p.Tree ok n) (holds : ∀ x, p.Contains n x → ok' x) : p.Tree ok' n := by
  induction h with
  | node other _ _ ih =>
      exact .node other (holds _ .self) fun c mem => ih c mem fun x within => holds x (.child mem within)
  | piece compound _ ih => exact .piece compound (ih fun x within => holds x (.piece within))

theorem of_mapM {nodes ws : List Node} (ran : nodes.mapM (Node.transformM (p.fillPlace? d)) = some ws)
    (each : ∀ n ∈ nodes, ∀ w, n.transformM (p.fillPlace? d) = some w → p.Tree ok n) :
    ∀ n ∈ nodes, p.Tree ok n := by
  induction nodes generalizing ws with
  | nil => exact nofun
  | cons n nodes ih =>
      rw [List.mapM_cons] at ran
      obtain ⟨w, first, ran⟩ := Option.bind_eq_some_iff.1 ran
      obtain ⟨ws', later, -⟩ := Option.bind_eq_some_iff.1 ran
      exact List.forall_mem_cons.2
        ⟨each n (.head _) w first, ih later fun n mem => each n (.tail _ mem)⟩

/-- A tree that can be put together has an end. -/
theorem of_transformM (solid : p.Solid) (inside : ∀ id, n.Refers id → id < p.nextId)
    (ran : n.transformM (p.fillPlace? d) = some w) : p.Tree (fun _ => True) n := by
  induction d generalizing n w with
  | zero =>
    induction n using Node.childInduction generalizing w with
    | step n ih =>
      cases isPiece : n.isPiece with
      | true =>
          obtain ⟨id, rfl⟩ := Node.eq_piece_of_isPiece isPiece
          cases ran
      | false =>
          rw [Node.transformM_eq] at ran
          obtain ⟨ws, below, -⟩ := Option.bind_eq_some_iff.1 ran
          refine .node isPiece trivial (of_mapM below fun c mem w => ih c mem fun id refers => ?_)
          exact inside id (.child mem refers)
  | succ d ihDepth =>
    induction n using Node.childInduction generalizing w with
    | step n ih =>
      cases isPiece : n.isPiece with
      | true =>
          obtain ⟨id, rfl⟩ := Node.eq_piece_of_isPiece isPiece
          obtain ⟨compound, refers⟩ := solid id (inside id .piece)
          have content : (p.get id).belowM (p.fillPlace? d) = some w := ran
          rw [Node.belowM_eq] at content
          obtain ⟨ws, below, -⟩ := Option.map_eq_some_iff.1 content
          refine .piece compound (.node (isPiece_of_isCompound compound) trivial ?_)
          exact of_mapM below fun c mem w => ihDepth fun id stands => refers id (.child mem stands)
      | false =>
          rw [Node.transformM_eq] at ran
          obtain ⟨ws, below, -⟩ := Option.bind_eq_some_iff.1 ran
          refine .node isPiece trivial (of_mapM below fun c mem w => ih c mem fun id refers => ?_)
          exact inside id (.child mem refers)

end Tree

end Pieces

namespace Machine.CallsNone

variable {m m' : Machine} {e : ScopeId} {n : Node} {ns : List Node}

/-- No node calls a macro in the tree, nor in any piece. -/
theorem of_everywhere (pieces : ∀ id, (m.pieces.get id).Everywhere fun n => m.store.macroFor? e n = none)
    (here : n.Everywhere fun n => m.store.macroFor? e n = none) : m.CallsNone e n := by
  intro x within
  induction within with
  | self =>
      obtain ⟨none, -⟩ := here
      exact none
  | child mem _ ih =>
      obtain ⟨-, below⟩ := here
      exact ih (below _ mem)
  | piece _ ih => exact ih (pieces _)

theorem withChildren (other : n.isPiece = false) (same : ns.length = n.children.length)
    (here : m.store.macroFor? e (n.withChildren ns) = none) (below : ∀ c ∈ ns, m.CallsNone e c) :
    m.CallsNone e (n.withChildren ns) := by
  intro x within
  have other' : (n.withChildren ns).isPiece = false := by rw [Node.isPiece_withChildren, other]
  have children := Node.children_withChildren same
  generalize n.withChildren ns = whole at within here other' children
  cases within with
  | self => exact here
  | child mem within =>
      rw [children] at mem
      exact below _ mem x within
  | piece => cases other'

theorem macroFor?_eq (has : m.HasMacros e) (more : m.Extends m') (n : Node) :
    m'.store.macroFor? e n = m.store.macroFor? e n := by
  unfold Store.macroFor?
  split
  · next name _ => rw [has.lookup_eq more]
  · rfl

theorem extend (h : m.CallsNone e n) (has : m.HasMacros e)
    (inside : ∀ id, n.Refers id → id < m.pieces.nextId) (more : m.Extends m') : m'.CallsNone e n := by
  intro x within
  rw [macroFor?_eq has more]
  exact h x (within.of_extends has.solid inside more.pieces)

end Machine.CallsNone

namespace Expansion

variable {depth : Nat} {e : ScopeId} {m m' : Machine} {n : Node} {nodes nodes' : List Node}
  {calls : List Call}

/-- Where no macro is called, nothing happens. -/
theorem run_expand_of_none (none : n.Everywhere fun n => m.store.macroFor? e n = none) :
    (expand depth e n).run m = .ok n m := by
  unfold expand
  induction none with
  | @mk n here _ ih =>
      rw [Node.transformM_eq, run_bind_of_ok (run_mapM_of_idle ih), Node.withChildren_children,
        giveM_step, run_step_of_none here]


/-- Where no macro is called, no call is replaced. -/
theorem Course.eq_nil (h : Course depth e nodes m calls nodes' m')
    (none : ∀ n ∈ nodes, n.Everywhere fun n => m.store.macroFor? e n = none) :
    calls = [] ∧ nodes' = nodes ∧ m' = m := by
  induction h with
  | nil => exact ⟨rfl, rfl, rfl⟩
  | stays _ _ _ ihBelow ihLater =>
      obtain ⟨⟨_, below⟩, later⟩ := List.forall_mem_cons.1 none
      obtain ⟨rfl, rfl, rfl⟩ := ihBelow below
      obtain ⟨rfl, rfl, rfl⟩ := ihLater later
      rw [Node.withChildren_children]
      exact ⟨rfl, rfl, rfl⟩
  | replaced _ called _ _ ihBelow _ =>
      obtain ⟨⟨here, below⟩, -⟩ := List.forall_mem_cons.1 none
      obtain ⟨-, rfl, rfl⟩ := ihBelow below
      rw [Node.withChildren_children] at called
      exact absurd here called

/-- The course of some nodes is that of the first one and that of the others. -/
theorem Course.uncons (h : Course depth e (n :: nodes) m calls nodes' m') :
    ∃ calls₁ calls₂ n' ns m₁, calls = calls₁ ++ calls₂ ∧ nodes' = n' :: ns ∧
      Course depth e [n] m calls₁ [n'] m₁ ∧ Course depth e nodes m₁ calls₂ ns m' := by
  cases h with
  | stays below other later =>
      refine ⟨_, _, _, _, _, rfl, rfl, ?_, later⟩
      simpa using below.stays other .nil
  | replaced below called ran later =>
      exact ⟨_, _, _, _, _, (List.append_assoc _ [_] _).symm, rfl, below.one_replaced called ran, later⟩

/-- Nodes that call no macro are passed over. -/
theorem Course.of_append {before : List Node}
    (calm : ∀ n ∈ before, n.Everywhere fun n => m.store.macroFor? e n = none)
    (h : Course depth e (before ++ nodes) m calls nodes' m') :
    ∃ ns, nodes' = before ++ ns ∧ Course depth e nodes m calls ns m' := by
  induction before generalizing nodes' calls with
  | nil => exact ⟨nodes', rfl, h⟩
  | cons n before ih =>
      obtain ⟨calmHere, calmLater⟩ := List.forall_mem_cons.1 calm
      obtain ⟨calls₁, calls₂, n', ns, m₁, rfl, rfl, here, later⟩ := h.uncons
      obtain ⟨rfl, same, rfl⟩ := here.eq_nil (List.forall_mem_singleton.2 calmHere)
      obtain ⟨ns, rfl, course⟩ := ih calmLater later
      rw [(List.cons.inj same).1]
      exact ⟨ns, rfl, course⟩

/-- In a node that calls no macro, whatever stands last in it, only that is expanded if all before it
calls none. -/
theorem Course.of_last {c : Node} (before : List Node) (children : n.children = before ++ [c])
    (calm : ∀ n ∈ before, n.Everywhere fun n => m.store.macroFor? e n = none)
    (other : ∀ (m : Machine) c', m.store.macroFor? e (n.withChildren (before ++ [c'])) = none)
    (h : Course depth e [n] m calls nodes' m') :
    ∃ c', nodes' = [n.withChildren (before ++ [c'])] ∧ Course depth e [c] m calls [c'] m' := by
  have only {calls : List Call} {ns : List Node} {m' : Machine}
      (below : Course depth e n.children m calls ns m') :
      ∃ c', ns = before ++ [c'] ∧ Course depth e [c] m calls [c'] m' := by
    rw [children] at below
    obtain ⟨ns, rfl, last⟩ := below.of_append calm
    obtain ⟨c', rfl⟩ := List.length_eq_one_iff.1 last.length_eq
    exact ⟨c', rfl, last⟩
  cases h with
  | stays below _ later =>
      cases later
      obtain ⟨c', rfl, last⟩ := only below
      rw [List.append_nil]
      exact ⟨c', rfl, last⟩
  | replaced below called =>
      obtain ⟨c', rfl, -⟩ := only below
      exact absurd (other _ c') called

/-- Of a call of a macro, with no others below it, only that call is replaced. -/
theorem Course.of_call {t : Option Token} {f : Node} {arguments : List Node}
    (calm : ∀ c ∈ f :: arguments, c.Everywhere fun n => m.store.macroFor? e n = none)
    (called : m.store.macroFor? e (.call t f arguments) ≠ none)
    (h : Course depth e [.call t f arguments] m calls nodes' m') :
    ∃ result, nodes' = [result] ∧ calls = [⟨.call t f arguments, m, result, m'⟩] := by
  cases h with
  | stays below other =>
      obtain ⟨-, rfl, rfl⟩ := below.eq_nil calm
      exact absurd other called
  | replaced below _ _ later =>
      cases later
      obtain ⟨rfl, rfl, rfl⟩ := below.eq_nil calm
      exact ⟨_, rfl, rfl⟩

end Expansion

/-! ## Expanding again -/

namespace Expansion

variable {depth room : Nat} {e : ScopeId} {m : Machine} {n : Node} {nodes : List Node}

/-- A step of an expansion that goes on into pieces. What stands below the place of a piece is expanded
there, and so in all places of the piece. More than `room` pieces inside each other overflow. -/
def stepInside (depth : Nat) (e : ScopeId) : Nat → Node → Expand Node
  | 0, .piece _ => throw (.halted .overflow)
  | room + 1, .piece id => do
    let node ← ((← get).pieces.get id).belowM (stepInside depth e room)
    modify fun m => { m with pieces := m.pieces.set id node }
    match (← get).store.macroFor? e node with
    | some _ => step depth e node
    | none => return .piece id
  | _, node => step depth e node

theorem giveM_stepInside (other : n.isPiece = false) :
    Node.giveM (stepInside depth e room) n = step depth e n := by
  cases n with
  | piece => cases other
  | _ => cases room <;> rfl

end Expansion

/-- Replace all calls of macros that are bound in a scope, also those in pieces. -/
def expandInside (depth : Nat) (e : ScopeId) (room : Nat) (node : Node) : Expand Node :=
  node.transformM (Expansion.stepInside depth e room)

theorem Pieces.set_get (p : Pieces) (id : PieceId) : p.set id (p.get id) = p := by
  unfold set get
  congr 1
  refine Array.ext (Array.size_setIfInBounds ..) fun i _ inside => ?_
  rw [Array.getElem_setIfInBounds]
  split
  · next same =>
    subst same
    rw [Array.getD_eq_getD_getElem?, Array.getElem?_eq_getElem inside, Option.getD_some]
  · rfl

namespace Expansion

variable {depth room : Nat} {e : ScopeId} {m : Machine} {n : Node} {nodes : List Node}

/-- The outcome of a walk that changes nothing, if it comes to an end. -/
def walked {α β : Type} (a : α) (m : Machine) (ends : Option β) : EStateM.Result Refusal Machine α :=
  match ends with
  | some _ => .ok a m
  | none => .error (.halted .overflow) m

theorem run_mapM_stepInside
    (each : ∀ n ∈ nodes, (expandInside depth e room n).run m =
      walked n m (n.transformM (m.pieces.fillPlace? room))) :
    (nodes.mapM (Node.transformM (stepInside depth e room))).run m =
      walked nodes m (nodes.mapM (Node.transformM (m.pieces.fillPlace? room))) := by
  induction nodes with
  | nil => rfl
  | cons n nodes ih =>
      obtain ⟨here, later⟩ := List.forall_mem_cons.1 each
      unfold expandInside at here
      rw [List.mapM_cons, List.mapM_cons]
      cases whole : n.transformM (m.pieces.fillPlace? room) with
      | none =>
          rw [whole] at here
          exact run_bind_of_exit here
      | some w =>
          rw [whole] at here
          rw [run_bind_of_ok here]
          have after := ih later
          cases wholes : nodes.mapM (Node.transformM (m.pieces.fillPlace? room)) with
          | none =>
              rw [wholes] at after
              exact run_bind_of_exit after
          | some ws =>
              rw [wholes] at after
              rw [run_bind_of_ok after]
              rfl

theorem run_expandInside_node (here : m.store.macroFor? e n = none) (other : n.isPiece = false)
    (each : ∀ c ∈ n.children, (expandInside depth e room c).run m =
      walked c m (c.transformM (m.pieces.fillPlace? room))) :
    (expandInside depth e room n).run m = walked n m (n.transformM (m.pieces.fillPlace? room)) := by
  have below := run_mapM_stepInside each
  rw [expandInside, Node.transformM_eq, Node.transformM_eq]
  cases wholes : n.children.mapM (Node.transformM (m.pieces.fillPlace? room)) with
  | none =>
      rw [wholes] at below
      exact run_bind_of_exit below
  | some ws =>
      rw [wholes] at below
      rw [run_bind_of_ok below, Node.withChildren_children, giveM_stepInside other,
        run_step_of_none here, Option.bind_eq_bind, Option.bind_some,
        Pieces.Tree.giveM_fillPlace? (by rw [Node.isPiece_withChildren, other])]
      rfl

theorem run_expandInside_piece {id : PieceId} (here : m.store.macroFor? e (m.pieces.get id) = none)
    (each : ∀ c ∈ (m.pieces.get id).children, (expandInside depth e room c).run m =
      walked c m (c.transformM (m.pieces.fillPlace? room))) :
    (expandInside depth e (room + 1) (.piece id)).run m =
      walked (.piece id) m ((Node.piece id).transformM (m.pieces.fillPlace? (room + 1))) := by
  have below := run_mapM_stepInside each
  have place : (Node.piece id).transformM (m.pieces.fillPlace? (room + 1)) =
      (m.pieces.get id).belowM (m.pieces.fillPlace? room) := rfl
  have walk : expandInside depth e (room + 1) (.piece id) =
      stepInside depth e (room + 1) (.piece id) := rfl
  have read : (MonadState.get : Expand Machine).run m = .ok m m := rfl
  rw [place, Node.belowM_eq, walk, stepInside, run_bind_of_ok read, Node.belowM_eq,
    map_eq_pure_bind, bind_assoc]
  cases wholes : (m.pieces.get id).children.mapM (Node.transformM (m.pieces.fillPlace? room)) with
  | none =>
      rw [wholes] at below
      exact run_bind_of_exit below
  | some ws =>
      rw [wholes] at below
      -- What is written back is what the piece was.
      have same : (modify fun m' : Machine =>
          { m' with pieces := m'.pieces.set id (m.pieces.get id) } : Expand PUnit).run m =
          .ok ⟨⟩ m := by
        change EStateM.Result.ok _ { m with pieces := m.pieces.set id (m.pieces.get id) } = _
        rw [Pieces.set_get]
      rw [run_bind_of_ok below, Node.withChildren_children, pure_bind, run_bind_of_ok same,
        run_bind_of_ok read, here]
      rfl

/-- Where no macro is called, an expansion that goes into the pieces changes nothing. It comes to an end
if the pieces can be put into their places. -/
theorem run_expandInside_of_none (calm : m.CallsNone e n) :
    (expandInside depth e room n).run m = walked n m (n.transformM (m.pieces.fillPlace? room)) := by
  induction room generalizing n with
  | zero =>
    induction n using Node.childInduction with
    | step n ih =>
      cases isPiece : n.isPiece with
      | true =>
          obtain ⟨id, rfl⟩ := Node.eq_piece_of_isPiece isPiece
          rfl
      | false =>
          refine run_expandInside_node (calm n .self) isPiece fun c mem => ih c mem ?_
          exact fun x within => calm x (.child mem within)
  | succ room ihRoom =>
    induction n using Node.childInduction with
    | step n ih =>
      cases isPiece : n.isPiece with
      | true =>
          obtain ⟨id, rfl⟩ := Node.eq_piece_of_isPiece isPiece
          refine run_expandInside_piece (calm _ (.piece .self)) fun c mem => ihRoom ?_
          exact fun x within => calm x (.piece (.child mem within))
      | false =>
          refine run_expandInside_node (calm n .self) isPiece fun c mem => ih c mem ?_
          exact fun x within => calm x (.child mem within)

end Expansion

open Expansion (Course)

/-- If an expansion returns, and no node that a macro has handed back meanwhile has a call of a macro
in it, then there is none in the expanded program. If the nodes that have been handed back have an end,
so has the program. An expansion that goes on into the pieces then comes to an end at any depth that has
room for all of them, and returns the program as it is; that of the whole of the program replaces
nothing, either. Nothing changes. A program without calls of macros is returned as it is, and nothing
happens. -/
theorem expand_reaches_every_call {m : Machine} {e : ScopeId} (has : m.HasMacros e) {program : Node}
    (free : ∀ id, ¬ program.Refers id) (depth : Nat) :
    (∀ expanded m', (expand depth e program).run m = .ok expanded m' →
      ∃ calls, Course depth e [program] m calls [expanded] m' ∧
        ((∀ call ∈ calls, call.after.CallsNone e call.result) → m'.CallsNone e expanded ∧
          ((∀ call ∈ calls, ∃ whole, call.after.pieces.whole? call.result = some whole) →
            (∀ depth' room, m'.pieces.nextId ≤ room →
              (expandInside depth' e room expanded).run m' = .ok expanded m') ∧
            ∃ whole, m'.pieces.whole? expanded = some whole ∧ ∀ depth',
              (expand depth' e whole).run m' = .ok whole m' ∧
                ∀ calls' expanded' m'', Course depth' e [whole] m' calls' [expanded'] m'' →
                  calls' = []))) ∧
    (m.CallsNone e program → (expand depth e program).run m = .ok program m ∧
      ∀ calls expanded m', Course depth e [program] m calls [expanded] m' → calls = []) := by
  have free : ∀ n ∈ [program], ∀ id, ¬ n.Refers id := List.forall_mem_singleton.2 free
  refine ⟨fun expanded m' ran => ?_, fun none => ?_⟩
  · obtain ⟨calls, course⟩ := Expansion.exists_course ran
    obtain ⟨more, has', inside⟩ := course.extends_ has free
    refine ⟨calls, course, fun handed => ?_⟩
    have none : m'.CallsNone e expanded :=
      course.keeps (Q := fun m n => m.CallsNone e n) .withChildren
        (fun has inside more none => none.extend has inside more) has free
        (fun call mem _ _ => handed call mem) expanded (.head _)
    refine ⟨none, fun ends => ?_⟩
    have tree : m'.pieces.Tree (fun _ => True) expanded := by
      refine course.keeps (Q := fun m n => m.pieces.Tree (fun _ => True) n)
        (fun other same _ below => .node ?_ trivial ?_)
        (fun _ _ more tree => tree.of_extends more.pieces) has free (fun call mem has inside => ?_)
        expanded (.head _)
      · rw [Node.isPiece_withChildren, other]
      · rwa [Node.children_withChildren same]
      · obtain ⟨whole, same⟩ := ends call mem
        exact .of_transformM has.solid inside same
    refine ⟨fun depth' room enough => ?_, ?_⟩
    · obtain ⟨whole, same, -⟩ := tree.exists_transformM (fun _ _ _ _ _ => trivial)
        fun id refers => Nat.lt_of_lt_of_le (tree.refers refers).card_inner_lt_nextId enough
      rw [Expansion.run_expandInside_of_none none, same]
      rfl
    obtain ⟨whole, same, calm⟩ := (tree.of_contains none).exists_whole
      fun n ns _ other heads => Store.macroFor?_withChildren other heads
    refine ⟨whole, same, fun depth' => ⟨Expansion.run_expand_of_none calm, ?_⟩⟩
    exact fun calls' expanded' m'' course' => (course'.eq_nil (List.forall_mem_singleton.2 calm)).1
  · have calm := Pieces.everywhere_of_contains none
    refine ⟨Expansion.run_expand_of_none calm, fun calls expanded m' course => ?_⟩
    exact (course.eq_nil (List.forall_mem_singleton.2 calm)).1

namespace Expansion

variable {m m' : Machine} {e : ScopeId}

/-- No node in the trees calls a macro, nor any in the pieces that are kept. -/
def isCalm (e : ScopeId) (m : Machine) (nodes : List Node) : Bool :=
  ((nodes ++ m.pieces.contents.toList).flatMap Node.postorder).all
    fun x => (m.store.macroFor? e x).isNone

theorem everywhere_of_isCalm {nodes : List Node} (calm : isCalm e m nodes = true) :
    ∀ n ∈ nodes, n.Everywhere (fun n => m.store.macroFor? e n = none) ∧ m.CallsNone e n := by
  have each {n : Node} (mem : n ∈ nodes ++ m.pieces.contents.toList) :
      n.Everywhere fun n => m.store.macroFor? e n = none := by
    refine Node.everywhere_of_postorder rfl fun x visited => ?_
    exact Option.isNone_iff_eq_none.1
      (List.all_eq_true.1 calm x (List.mem_flatMap.2 ⟨n, mem, visited⟩))
  have pieces (id : PieceId) : (m.pieces.get id).Everywhere fun n => m.store.macroFor? e n = none := by
    rw [Pieces.get, Array.getD_eq_getD_getElem?]
    cases kept : m.pieces.contents[id]? with
    | none => exact .mk rfl fun c mem => absurd mem List.not_mem_nil
    | some n =>
        refine each (List.mem_append_right _ ?_)
        exact Array.mem_toList_iff.2 (Array.mem_of_getElem? kept)
  intro n mem
  have here := each (List.mem_append_left _ mem)
  exact ⟨here, .of_everywhere pieces here⟩

theorem Course.of_statement {depth : Nat} {t : Option Token} {c : Node} {nodes : List Node}
    {calls : List Call} (h : Course depth e [.program [.exprStmt t c]] m calls nodes m') :
    ∃ c', nodes = [.program [.exprStmt t c']] ∧ Course depth e [c] m calls [c'] m' := by
  obtain ⟨_, rfl, statement⟩ := h.of_last [] rfl nofun fun _ _ => rfl
  obtain ⟨c', same, course⟩ := statement.of_last [] rfl nofun fun _ _ => rfl
  rw [(List.cons.inj same).1]
  exact ⟨c', rfl, course⟩

end Expansion

theorem Session.hasMacros_defineMacros {program : Node}
    (free : ∀ d ∈ program.statements.filterMap MacroDefinition.ofStatement?,
      ∀ x ∈ d.body.postorder, x.isPiece = false) :
    (machine₀.defineMacros macros program).2.HasMacros macros := by
  rw [Machine.defineMacros_eq]
  exact hasMacros_machine₀.defineMacros fun d mem => Node.not_refers_of_postorder (free d mem)

/-- Of `1 + two()` there comes `1 + 2`, in which no macro is called. To expand that again changes
nothing. -/
theorem expand_reaches_every_call_operand :
    let quotation : Node := .call none (.ident none Quote.quoteName) [.int none 2]
    let m := Session.machine₀.bind Session.macros "two"
      (.macroValue 0 [] (.block none [.exprStmt none quotation]) Session.macros)
    let sum (n : Node) : Node := .program [.exprStmt none (.binary none (.int none 1) "+" n)]
    let two : Node := .call none (.ident none "two") []
    m.HasMacros Session.macros ∧ (∀ id, ¬ (sum two).Refers id) ∧
      ∃ m' call, (expand 20 Session.macros (sum two)).run m = .ok (sum (.int none 2)) m' ∧
        Course 20 Session.macros [sum two] m [call] [sum (.int none 2)] m' ∧
        call.after.CallsNone Session.macros call.result ∧
        (∃ whole, call.after.pieces.whole? call.result = some whole) ∧
        m'.CallsNone Session.macros (sum (.int none 2)) ∧
        (∀ depth room, m'.pieces.nextId ≤ room →
          (expandInside depth Session.macros room (sum (.int none 2))).run m' =
            .ok (sum (.int none 2)) m') ∧
        ∃ whole, m'.pieces.whole? (sum (.int none 2)) = some whole ∧
          ∀ depth, (expand depth Session.macros whole).run m' = .ok whole m' := by
  intro quotation m sum two
  have has : m.HasMacros Session.macros := ⟨Session.hasMacros_machine₀.solid,
    Session.hasMacros_machine₀.binds.bind "two" (Node.not_refers_of_postorder (by decide))⟩
  have free : ∀ id, ¬ (sum two).Refers id := Node.not_refers_of_postorder (by decide)
  refine ⟨has, free, ?_⟩
  have calm : Expansion.isCalm Session.macros m [.int none 1, .ident none "two"] = true := by
    decide +kernel
  have calm := Expansion.everywhere_of_isCalm calm
  have returns : value? ((expand 20 Session.macros (sum two)).run m) = some (sum (.int none 2)) := by
    cbv
  have after : Expansion.isCalm Session.macros
      (finalState ((expand 20 Session.macros (sum two)).run m)) [.int none 2] = true := by
    decide +kernel
  obtain ⟨m', ran⟩ := exists_of_value?_eq_some returns
  rw [ran] at after
  obtain ⟨calls, course, reaches⟩ := (expand_reaches_every_call has free 20).1 _ m' ran
  obtain ⟨_, same, operation⟩ := course.of_statement
  cases same
  obtain ⟨_, same, operand⟩ := operation.of_last [.int none 1] rfl
    (List.forall_mem_singleton.2 (calm _ (.head _)).1) fun _ _ => rfl
  cases same
  obtain ⟨result, same, rfl⟩ := operand.of_call
    (List.forall_mem_singleton.2 (calm _ (.tail _ (.head _))).1) (by decide +kernel)
  cases same
  have handed := (Expansion.everywhere_of_isCalm after _ (.head _)).2
  have itself : m'.pieces.whole? (.int none 2) = some (.int none 2) := by
    rw [Pieces.whole?, Node.transformM]
    have other : (Node.int none 2).isPiece = false := rfl
    exact Pieces.Tree.giveM_fillPlace? other
  have ends : ∃ whole, m'.pieces.whole? (.int none 2) = some whole := ⟨_, itself⟩
  obtain ⟨callsNone, again⟩ := reaches (List.forall_mem_singleton.2 handed)
  obtain ⟨inside, whole, same, calls⟩ := again (List.forall_mem_singleton.2 ends)
  exact ⟨m', _, ran, course, handed, ends, callsNone, inside, whole, same,
    fun depth => (calls depth).1⟩

theorem Node.eq_exprStmt {n : Node} (h : n.kindName = "ExpressionStatement") :
    ∃ t v, n = .exprStmt t v := by
  cases n with
  | exprStmt t v => exact ⟨t, v, rfl⟩
  | _ => simp [kindName] at h

theorem Node.eq_call {n : Node} (h : n.kindName = "CallExpression") :
    ∃ t f arguments, n = .call t f arguments := by
  cases n with
  | call t f arguments => exact ⟨t, f, arguments, rfl⟩
  | _ => simp [kindName] at h

/-- The macro puts its second argument into both, and so into itself, and hands back a list of them. No
macro is called in it, but it has no end, and no further expansion of the program comes to one. -/
theorem expand_hands_back_endless_program :
    let source := "let m = macro(x, y) \x7b quote(unquote(quote([unquote(x), unquote(x)]))) \x7d; " ++
      "m([unquote(y)], [unquote(y)])"
    let program := (Session.machine₀.defineMacros Session.macros (parse source).program).1
    let m := (Session.machine₀.defineMacros Session.macros (parse source).program).2
    m.HasMacros Session.macros ∧ (∀ id, ¬ program.Refers id) ∧
      ∃ expanded m' calls, (expand 20 Session.macros program).run m = .ok expanded m' ∧
        Course 20 Session.macros [program] m calls [expanded] m' ∧
        (∀ call ∈ calls, call.after.CallsNone Session.macros call.result) ∧
        m'.CallsNone Session.macros expanded ∧
        ∀ depth room, (expandInside depth Session.macros room expanded).run m' =
          .error (.halted .overflow) m' := by
  intro source program m
  have has : m.HasMacros Session.macros := Session.hasMacros_defineMacros (by decide +kernel)
  have free : ∀ x ∈ program.postorder, x.isPiece = false := by decide +kernel
  have free := Node.not_refers_of_postorder free
  have one : (program.children.flatMap Node.children).map Node.kindName = ["CallExpression"] ∧
      program.children.map Node.kindName = ["ExpressionStatement"] := by decide +kernel
  have calls : ∀ c ∈ program.children.flatMap Node.children,
      (m.store.macroFor? Session.macros c).isSome = true ∧
        Expansion.isCalm Session.macros m c.children = true := by decide +kernel
  have returns : (value? ((expand 20 Session.macros program).run m)).isSome = true := by
    decide +kernel
  have endless : ∀ n ∈ value? ((expand 20 Session.macros program).run m),
      Expansion.isCalm Session.macros (finalState ((expand 20 Session.macros program).run m)) [n] ∧
        ((finalState ((expand 20 Session.macros program).run m)).pieces.whole? n).isNone := by
    decide +kernel
  obtain ⟨statements, shape⟩ : ∃ statements, program = .program statements := ⟨_, rfl⟩
  refine ⟨has, free, ?_⟩
  clear_value program m
  obtain ⟨oneCall, oneStatement⟩ := one
  subst shape
  obtain ⟨s, rfl, isStatement⟩ := List.map_eq_singleton_iff.1 oneStatement
  obtain ⟨t, c, rfl⟩ := Node.eq_exprStmt isStatement
  obtain ⟨_, same, isCall⟩ := List.map_eq_singleton_iff.1 oneCall
  cases same
  obtain ⟨u, f, arguments, rfl⟩ := Node.eq_call isCall
  obtain ⟨called, calm⟩ := calls _ (.head _)
  have calm := Expansion.everywhere_of_isCalm calm
  obtain ⟨expanded, returned⟩ := Option.isSome_iff_exists.1 returns
  obtain ⟨none, endless⟩ := endless expanded returned
  obtain ⟨m', ran⟩ := exists_of_value?_eq_some returned
  rw [ran] at none endless
  change Expansion.isCalm Session.macros m' [expanded] = true at none
  obtain ⟨calls, course⟩ := Expansion.exists_course ran
  obtain ⟨-, has', inside⟩ := course.extends_ has (List.forall_mem_singleton.2 free)
  obtain ⟨-, callsNone⟩ := Expansion.everywhere_of_isCalm none expanded (.head _)
  refine ⟨expanded, m', calls, ran, course, ?_, callsNone, fun depth room => ?_⟩
  · obtain ⟨_, same, statement⟩ := course.of_statement
    cases same
    obtain ⟨result, same, rfl⟩ := statement.of_call (fun c mem => (calm c mem).1)
      (Option.isSome_iff_ne_none.1 called)
    cases same
    exact List.forall_mem_singleton.2 fun x within =>
      callsNone x (.child (.head _) (.child (.head _) within))
  · rw [Expansion.run_expandInside_of_none callsNone]
    cases ends : expanded.transformM (m'.pieces.fillPlace? room) with
    | none => rfl
    | some whole =>
        have tree := Pieces.Tree.of_transformM has'.solid (inside _ (.head _)) ends
        obtain ⟨whole, same, -⟩ := tree.exists_whole fun _ _ _ _ _ => trivial
        change (m'.pieces.whole? expanded).isNone = true at endless
        rw [same] at endless
        cases endless

end MonkeyLang
