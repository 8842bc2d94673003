import MonkeyLang.Proofs.Evaluation.Isolation
import MonkeyLang.Proofs.Node.Postorder
import MonkeyLang.Proofs.Quotation.Expanded

/-!
# The course of an expansion

An expansion visits the nodes of a program, the children of a node before the node itself, and from
left to right. A node that has become a call of a macro by then is replaced, and what takes its place
is not visited again.

* `Store.macroFor?` is the macro that a node calls.
* `Expansion.Course` lists the calls that have been replaced in their order, each with the node that
  the macro has handed back. `Expansion.exists_course` finds one for every expansion that returns.
* `Expansion.Course.keeps` leads from the nodes that have been handed back to the expanded program.
-/

namespace MonkeyLang

/-- The macro that a node calls: the parameters and the body, and the scope it was defined in. -/
def Store.macroFor? (s : Store) (e : ScopeId) : Node → Option (List Node × Node × ScopeId)
  | .call _ (.ident _ name) _ =>
    match s.lookup e name with
    | some (.macroValue _ parameters body scope) => some (parameters, body, scope)
    | _ => none
  | _ => none

theorem Store.macroFor?_eq_some {s : Store} {e scope : ScopeId} {n body : Node}
    {parameters : List Node} (h : s.macroFor? e n = some (parameters, body, scope)) :
    ∃ t u name arguments serial, n = .call t (.ident u name) arguments ∧
      s.lookup e name = some (.macroValue serial parameters body scope) := by
  unfold macroFor? at h
  split at h
  · next t u name arguments =>
    split at h
    · next serial parameters' body' scope' found =>
        cases h
        exact ⟨t, u, name, arguments, serial, rfl, found⟩
    · cases h
  · cases h

/-- A node whose callee is no other identifier than before calls a macro only if it did before. -/
theorem Store.macroFor?_withChildren {s : Store} {e : ScopeId} {n : Node} {ns : List Node}
    (other : s.macroFor? e n = none) (heads : List.Forall₂ Node.Heads n.children ns) :
    s.macroFor? e (n.withChildren ns) = none := by
  cases n with
  | call t callee arguments =>
      cases heads with
      | @cons _ callee' _ arguments' head heads =>
          cases callee' with
          | ident u name =>
              rw [head u name rfl] at other
              exact other
          | _ => rfl
  | _ =>
      unfold Node.withChildren
      split <;> first | rfl | simp_all

/-- What holds of a hole, and of all nodes that a transformation visits, holds of every node. -/
theorem Node.everywhere_of_postorder {ok : Node → Prop} {n : Node} (hole : ok .missing)
    (each : ∀ x ∈ n.postorder, ok x) : n.Everywhere ok := by
  induction n using Node.childInduction with
  | step n ih =>
      by_cases some_ : n = .missing
      · subst some_
        exact .mk hole nofun
      · rw [postorder_eq some_] at each
        obtain ⟨below, here⟩ := List.forall_mem_append.1 each
        refine .mk (here n (.head _)) fun c mem => ih c mem fun x visited => below x ?_
        exact List.mem_flatMap.2 ⟨c, mem, visited⟩

theorem Node.not_refers_of_postorder {n : Node} (none : ∀ x ∈ n.postorder, x.isPiece = false)
    (id : PieceId) : ¬ n.Refers id := by
  have everywhere : n.Everywhere fun x => x.isPiece = false := everywhere_of_postorder rfl none
  clear none
  intro refers
  induction refers with
  | piece =>
      obtain ⟨other, -⟩ := everywhere
      cases other
  | child mem _ ih =>
      obtain ⟨-, below⟩ := everywhere
      exact ih (below _ mem)

theorem Node.free_children {n : Node} (free : ∀ id, ¬ n.Refers id) :
    ∀ c ∈ n.children, ∀ id, ¬ c.Refers id := fun _ mem id refers => free id (.child mem refers)

theorem Node.isPiece_of_free {n : Node} (free : ∀ id, ¬ n.Refers id) : n.isPiece = false := by
  cases n with
  | piece id => exact absurd .piece (free id)
  | _ => rfl

namespace Expansion

variable {depth : Nat} {e : ScopeId} {m m' m₁ m₂ : Machine} {n result : Node}

/-- A node that calls no macro stays, and nothing happens. -/
theorem run_step_of_none (other : m.store.macroFor? e n = none) :
    (step depth e n).run m = .ok n m := by
  unfold Store.macroFor? at other
  unfold step
  split
  · next t u name arguments =>
    dsimp only at other
    have read : (MonadState.get : Expand Machine).run m = .ok m m := rfl
    rw [run_bind_of_ok read]
    generalize m.store.lookup e name = found at other
    split
    · cases other
    · rfl
  · rfl

/-- A node that calls a macro is replaced by the node that the macro hands back, which is noted. -/
theorem run_step_of_some {t u : Option Token} {name : Text} {arguments parameters : List Node}
    {serial : Nat} {body : Node} {scope : ScopeId}
    (found : m.store.lookup e name = some (.macroValue serial parameters body scope)) :
    (step depth e (.call t (.ident u name) arguments)).run m =
      (do
        let result ← replacement depth name parameters body scope arguments
        modify fun m => m.remark (.expanded (m.pieces.shown (.call t (.ident u name) arguments))
          (m.pieces.shown result))
        return result : Expand Node).run m := by
  have read : (MonadState.get : Expand Machine).run m = .ok m m := rfl
  rw [step, run_bind_of_ok read, found]

/-- A call that has been replaced: as it stood by then, in the machine by then, the node that the macro
has handed back, and the machine afterwards. -/
structure Call where
  node : Node
  before : Machine
  result : Node
  after : Machine

/-- The course of the expansion of some nodes, with the calls that are replaced. -/
inductive Course (depth : Nat) (e : ScopeId) :
    List Node → Machine → List Call → List Node → Machine → Prop
  | nil {m : Machine} : Course depth e [] m [] [] m
  | stays {n : Node} {others ns others' : List Node} {calls calls' : List Call}
      {m m₁ m₂ : Machine} :
    Course depth e n.children m calls ns m₁ → m₁.store.macroFor? e (n.withChildren ns) = none →
    Course depth e others m₁ calls' others' m₂ →
    Course depth e (n :: others) m (calls ++ calls') (n.withChildren ns :: others') m₂
  | replaced {n result : Node} {others ns others' : List Node} {calls calls' : List Call}
      {m m₁ m₂ m₃ : Machine} :
    Course depth e n.children m calls ns m₁ → m₁.store.macroFor? e (n.withChildren ns) ≠ none →
    (step depth e (n.withChildren ns)).run m₁ = .ok result m₂ →
    Course depth e others m₂ calls' others' m₃ →
    Course depth e (n :: others) m (calls ++ ⟨n.withChildren ns, m₁, result, m₂⟩ :: calls')
      (result :: others') m₃

variable {nodes nodes' : List Node} {calls : List Call}

theorem giveM_step (n : Node) : Node.giveM (step depth e) n = step depth e n := by
  cases n <;> rfl

theorem Course.cons {n' : Node} {calls' : List Call} (first : Course depth e [n] m calls [n'] m₁)
    (later : Course depth e nodes m₁ calls' nodes' m₂) :
    Course depth e (n :: nodes) m (calls ++ calls') (n' :: nodes') m₂ := by
  cases first with
  | stays below other none =>
      cases none
      rw [List.append_nil]
      exact below.stays other later
  | replaced below call ran none =>
      cases none
      rw [List.append_assoc]
      exact below.replaced call ran later

/-- Every expansion that returns has a course. -/
theorem exists_course_transformM (ran : (n.transformM (step depth e)).run m = .ok result m') :
    ∃ calls, Course depth e [n] m calls [result] m' := by
  induction n using Node.childInduction generalizing m result m' with
  | step n ih =>
      have children {nodes ns : List Node} {m m' : Machine} (inside : nodes ⊆ n.children)
          (ran : (nodes.mapM (Node.transformM (step depth e))).run m = .ok ns m') :
          ∃ calls, Course depth e nodes m calls ns m' := by
        induction nodes generalizing m ns with
        | nil =>
            cases ran
            exact ⟨[], .nil⟩
        | cons c nodes ihList =>
            obtain ⟨mem, inside⟩ := List.cons_subset.1 inside
            rw [List.mapM_cons] at ran
            obtain ⟨c', m₁, ranHere, ran⟩ := exists_of_run_bind ran
            obtain ⟨ns', m₂, ranLater, ran⟩ := exists_of_run_bind ran
            cases ran
            obtain ⟨calls, here⟩ := ih c mem ranHere
            obtain ⟨calls', later⟩ := ihList inside ranLater
            exact ⟨calls ++ calls', here.cons later⟩
      rw [Node.transformM_eq] at ran
      obtain ⟨ns, m₁, below, ran⟩ := exists_of_run_bind ran
      obtain ⟨calls, course⟩ := children (List.Subset.refl _) below
      rw [giveM_step] at ran
      cases called : m₁.store.macroFor? e (n.withChildren ns) with
      | none =>
          rw [run_step_of_none called] at ran
          cases ran
          exact ⟨calls ++ [], course.stays called .nil⟩
      | some found =>
          refine ⟨_, course.replaced ?_ ran .nil⟩
          rw [called]
          exact Option.some_ne_none found

theorem exists_course {program expanded : Node}
    (ran : (expand depth e program).run m = .ok expanded m') :
    ∃ calls, Course depth e [program] m calls [expanded] m' := exists_course_transformM ran

namespace Course

theorem length_eq (h : Course depth e nodes m calls nodes' m') : nodes'.length = nodes.length := by
  induction h with
  | nil => rfl
  | stays _ _ _ _ ih => exact congrArg (· + 1) ih
  | replaced _ _ _ _ _ ih => exact congrArg (· + 1) ih

theorem one_replaced {ns : List Node} (below : Course depth e n.children m calls ns m₁)
    (called : m₁.store.macroFor? e (n.withChildren ns) ≠ none)
    (ran : (step depth e (n.withChildren ns)).run m₁ = .ok result m₂) :
    Course depth e [n] m (calls ++ [⟨n.withChildren ns, m₁, result, m₂⟩]) [result] m₂ :=
  below.replaced called ran .nil

theorem quoted_withChildren {S : Enclosure} {p : Pieces} {ns : List Node} (free : ∀ id, ¬ n.Refers id)
    (same : ns.length = n.children.length) (quoted : ∀ c ∈ ns, S.setting.quoted p c) :
    S.setting.quoted p (n.withChildren ns) := by
  intro id refers
  obtain ⟨c, mem, refers⟩ := (Node.refers_withChildren (Node.isPiece_of_free free) same).1 refers
  exact quoted c mem id refers

open Enclosure in
/-- Nodes without pieces are expanded within the enclosure of any machine before. -/
theorem expands {first : Machine} (macros : first.store.BindsMacros e)
    (h : Course depth e nodes m calls nodes' m') (free : ∀ n ∈ nodes, ∀ id, ¬ n.Refers id)
    (holds : (expanding first e).Holds m) :
    (expanding first e).Later m m' ∧ (expanding first e).Holds m' ∧
      ∀ n ∈ nodes', (expansion first e).setting.quoted m'.pieces n := by
  induction h with
  | nil => exact ⟨.refl, holds, nofun⟩
  | @stays n _ ns _ _ _ _ m₁ m₂ below _ later ihBelow ihLater =>
      obtain ⟨freeHere, freeLater⟩ := List.forall_mem_cons.1 free
      obtain ⟨moved₁, holds₁, quoted⟩ := ihBelow (Node.free_children freeHere) holds
      obtain ⟨moved₂, holds₂, quoted'⟩ := ihLater freeLater holds₁
      refine ⟨moved₁.trans moved₂, holds₂, List.forall_mem_cons.2 ⟨?_, quoted'⟩⟩
      refine (expansion first e).setting.quoted_moves moved₂.moves ?_
      exact quoted_withChildren freeHere below.length_eq quoted
  | @replaced n result _ ns _ _ _ _ m₁ m₂ m₃ below _ ran later ihBelow ihLater =>
      obtain ⟨freeHere, freeLater⟩ := List.forall_mem_cons.1 free
      obtain ⟨moved₁, holds₁, quoted⟩ := ihBelow (Node.free_children freeHere) holds
      have here := quoted_withChildren freeHere below.length_eq quoted
      have stepped := expanding_step depth macros here holds₁
      rw [ran] at stepped
      obtain ⟨moved₂, holds₂, quotedResult⟩ := stepped
      obtain ⟨moved₃, holds₃, quoted'⟩ := ihLater freeLater holds₂
      refine ⟨(moved₁.trans moved₂).trans moved₃, holds₃, List.forall_mem_cons.2 ⟨?_, quoted'⟩⟩
      exact (expansion first e).setting.quoted_moves moved₃.moves quotedResult

end Course

end Expansion

/-- A scope of macros, and pieces that refer to pieces. -/
structure Machine.HasMacros (m : Machine) (e : ScopeId) : Prop where
  solid : m.pieces.Solid
  binds : m.store.BindsMacros e

/-- All scopes and pieces that there were are as they were. -/
structure Machine.Extends (m m' : Machine) : Prop where
  store : m.store.Extends m'.store
  pieces : m.pieces.Extends m'.pieces

theorem Machine.HasMacros.lookup_eq {m m' : Machine} {e : ScopeId} (has : m.HasMacros e)
    (more : m.Extends m') (name : Text) : m'.store.lookup e name = m.store.lookup e name :=
  more.store.lookup_eq has.binds.inside name

/-- Definitions of macros without pieces. -/
theorem Machine.HasMacros.defineMacros {m : Machine} {e : ScopeId} (has : m.HasMacros e)
    {definitions : List MacroDefinition} (free : ∀ d ∈ definitions, ∀ id, ¬ d.body.Refers id) :
    (definitions.foldl (·.defineMacro e ·) m).HasMacros e := by
  induction definitions generalizing m with
  | nil => exact has
  | cons d definitions ih =>
      obtain ⟨freeHere, freeLater⟩ := List.forall_mem_cons.1 free
      have bound : (m.defineMacro e d).HasMacros e := ⟨has.solid, has.binds.bind d.name freeHere⟩
      exact ih bound freeLater

theorem Session.hasMacros_machine₀ : Session.machine₀.HasMacros Session.macros where
  solid _ inside := absurd inside (Nat.not_lt_zero _)
  binds := ⟨by decide, rfl, fun _ _ bound => nomatch bound⟩

namespace Expansion.Course

variable {depth : Nat} {e : ScopeId} {m m' : Machine} {nodes nodes' : List Node} {calls : List Call}

/-- The expansion of nodes without pieces changes nothing that there was. -/
theorem extends_ (h : Course depth e nodes m calls nodes' m') (has : m.HasMacros e)
    (free : ∀ n ∈ nodes, ∀ id, ¬ n.Refers id) :
    m.Extends m' ∧ m'.HasMacros e ∧ ∀ n ∈ nodes', ∀ id, n.Refers id → id < m'.pieces.nextId := by
  obtain ⟨-, ⟨sound, store⟩, quoted⟩ :=
    h.expands has.binds free ⟨Enclosure.sound_expansion has.solid has.binds, .refl⟩
  have pieces : (Enclosure.expansion m e).Holds m'.pieces := sound.pieces
  exact ⟨⟨store, pieces.nextId_le, fun id old => pieces.same id old not_false⟩,
    ⟨pieces.solid, has.binds.extend store⟩, fun n mem id refers => (quoted n mem id refers).1⟩

/-- What holds of the nodes that have been handed back, when they are, holds of all nodes that result,
if it holds of a node that stays when it holds of the nodes right below it, and lasts as long as
nothing that there was is changed. -/
theorem keeps {Q : Machine → Node → Prop}
    (node : ∀ {m : Machine} {n : Node} {ns : List Node}, n.isPiece = false → ns.length = n.children.length →
      m.store.macroFor? e (n.withChildren ns) = none → (∀ c ∈ ns, Q m c) → Q m (n.withChildren ns))
    (lasting : ∀ {m m' : Machine} {n : Node}, m.HasMacros e → (∀ id, n.Refers id → id < m.pieces.nextId) →
      m.Extends m' → Q m n → Q m' n)
    (h : Course depth e nodes m calls nodes' m') (has : m.HasMacros e)
    (free : ∀ n ∈ nodes, ∀ id, ¬ n.Refers id)
    (handed : ∀ call ∈ calls, call.after.HasMacros e →
      (∀ id, call.result.Refers id → id < call.after.pieces.nextId) → Q call.after call.result) :
    ∀ n ∈ nodes', Q m' n := by
  induction h with
  | nil => exact nofun
  | @stays n _ ns _ _ _ _ m₁ m₂ below other later ihBelow ihLater =>
      obtain ⟨freeHere, freeLater⟩ := List.forall_mem_cons.1 free
      obtain ⟨handedBelow, handedLater⟩ := List.forall_mem_append.1 handed
      have one : Course depth e [n] _ _ [n.withChildren ns] m₁ := below.stays other .nil
      obtain ⟨-, has₁, inside⟩ := one.extends_ has (List.forall_mem_singleton.2 freeHere)
      obtain ⟨more, -, -⟩ := later.extends_ has₁ freeLater
      have here := node (Node.isPiece_of_free freeHere) below.length_eq other
        (ihBelow has (Node.free_children freeHere) handedBelow)
      exact List.forall_mem_cons.2 ⟨lasting has₁ (inside _ (.head _)) more here,
        ihLater has₁ freeLater handedLater⟩
  | @replaced n result _ ns _ _ _ _ m₁ m₂ m₃ below called ran later ihBelow ihLater =>
      obtain ⟨freeHere, freeLater⟩ := List.forall_mem_cons.1 free
      obtain ⟨-, handedHere⟩ := List.forall_mem_append.1 handed
      obtain ⟨here, handedLater⟩ := List.forall_mem_cons.1 handedHere
      obtain ⟨-, has₂, inside⟩ :=
        (below.one_replaced called ran).extends_ has (List.forall_mem_singleton.2 freeHere)
      obtain ⟨more, -, -⟩ := later.extends_ has₂ freeLater
      exact List.forall_mem_cons.2 ⟨lasting has₂ (inside _ (.head _)) more (here has₂ (inside _ (.head _))),
        ihLater has₂ freeLater handedLater⟩

end Expansion.Course

end MonkeyLang
