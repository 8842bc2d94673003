import Mathlib.Data.List.Forall2
import MonkeyLang.Proofs.Machine.Runs
import MonkeyLang.Proofs.Node.Renamed

/-!
# The visits of a transformation

A transformation gives every node of a tree to a modifier, the children of a node before the node
itself and from left to right. By then what the modifier has returned for the children stands in their
places. What it returns for the node is not given to it again.

* `Node.postorder` lists the nodes of a tree in the order in which they are visited.
* `Node.Visited` says which calls of the modifier make which trees of which, whatever it returns.
* `Node.Performed` says that a modifier with a state returns just that, call after call.
* `Node.run_transformM_eq_ok_iff` is the fact that a transformation performs these calls and no others;
  `Node.brokenOff_transformM` says where one ends that is broken off.
-/

namespace MonkeyLang

namespace Node

/-! ## The nodes of a tree -/

mutual

/-- The nodes of a tree, each behind the nodes below it, and these in the order of the text. A hole is
none, nor is the name that a let statement binds. -/
def postorder : Node → List Node
  | missing => []
  | program ss => postorderAll ss ++ [program ss]
  | block t ss => postorderAll ss ++ [block t ss]
  | letStmt t name v => v.postorder ++ [letStmt t name v]
  | returnStmt t v => v.postorder ++ [returnStmt t v]
  | exprStmt t v => v.postorder ++ [exprStmt t v]
  | ident t name => [ident t name]
  | int t value => [int t value]
  | bool t value => [bool t value]
  | str t value => [str t value]
  | array t es => postorderAll es ++ [array t es]
  | hash t ps => postorderPairs ps ++ [hash t ps]
  | unary t op v => v.postorder ++ [unary t op v]
  | binary t l op r => l.postorder ++ r.postorder ++ [binary t l op r]
  | ifElse t c th e => c.postorder ++ th.postorder ++ e.postorder ++ [ifElse t c th e]
  | fnLit t ps b => postorderAll ps ++ b.postorder ++ [fnLit t ps b]
  | macroLit t ps b => postorderAll ps ++ b.postorder ++ [macroLit t ps b]
  | call t c as => c.postorder ++ postorderAll as ++ [call t c as]
  | index t c i => c.postorder ++ i.postorder ++ [index t c i]
  | piece id => [piece id]

/-- The nodes of some trees, one tree after the other. -/
def postorderAll : List Node → List Node
  | [] => []
  | node :: nodes => node.postorder ++ postorderAll nodes

/-- The nodes of the pairs of a hash, each key before its value. -/
def postorderPairs : List (Node × Node) → List Node
  | [] => []
  | (key, value) :: pairs => key.postorder ++ value.postorder ++ postorderPairs pairs

end

theorem postorderAll_eq (nodes : List Node) : postorderAll nodes = nodes.flatMap postorder := by
  induction nodes with
  | nil => rfl
  | cons node nodes ih => rw [postorderAll, ih, List.flatMap_cons]

theorem postorderPairs_eq (pairs : List (Node × Node)) :
    postorderPairs pairs = (pairs.flatMap fun p => [p.1, p.2]).flatMap postorder := by
  induction pairs with
  | nil => rfl
  | cons p pairs ih => simp [postorderPairs, ih]

/-- A node comes behind all that is below it. -/
theorem postorder_eq {n : Node} (some_ : n ≠ missing) :
    n.postorder = n.children.flatMap postorder ++ [n] := by
  cases n with
  | missing => exact absurd rfl some_
  | hash t ps => rw [postorder, postorderPairs_eq, children]
  | _ => simp [postorder, children, postorderAll_eq]

/-! ## Visits -/

/-- A call of a modifier: the node that it is given and the node that it returns. -/
structure Visit where
  given : Node
  result : Node

/-- From the nodes come the results, by these visits one after the other: from the children of a node
come others by the first visits, and then the node itself is given with these in the places of its
children. A hole stays, and is not given. -/
inductive Visited : List Node → List Visit → List Node → Prop
  | nil : Visited [] [] []
  | hole {others others' : List Node} {visits : List Visit} :
    Visited others visits others' → Visited (missing :: others) visits (missing :: others')
  | node {n result : Node} {ns others others' : List Node} {below behind : List Visit} :
    n ≠ missing → Visited n.children below ns → Visited others behind others' →
    Visited (n :: others) (below ++ ⟨n.withChildren ns, result⟩ :: behind) (result :: others')

namespace Visited

variable {n n' : Node} {nodes nodes' : List Node} {visits visits' : List Visit}

theorem length_eq (h : Visited nodes visits nodes') : nodes'.length = nodes.length := by
  induction h with
  | nil => rfl
  | hole _ ih => exact congrArg (· + 1) ih
  | node _ _ _ _ ih => exact congrArg (· + 1) ih

theorem one (some_ : n ≠ missing) {ns : List Node} (below : Visited n.children visits ns)
    (result : Node) : Visited [n] (visits ++ [⟨n.withChildren ns, result⟩]) [result] :=
  below.node some_ .nil

theorem cons (first : Visited [n] visits [n']) (later : Visited nodes visits' nodes') :
    Visited (n :: nodes) (visits ++ visits') (n' :: nodes') := by
  cases first with
  | hole none =>
      cases none
      exact later.hole
  | node some_ below none =>
      cases none
      rw [List.append_assoc]
      exact below.node some_ later

/-- There are visits of all nodes: the modifier may return what it is given. -/
theorem exists_of_nodes (nodes : List Node) : ∃ visits nodes', Visited nodes visits nodes' := by
  have one (n : Node) : ∃ visits n', Visited [n] visits [n'] := by
    induction n using childInduction with
    | step n ih =>
        by_cases hole : n = missing
        · exact ⟨[], missing, hole ▸ .hole .nil⟩
        · have children (nodes : List Node) (inside : nodes ⊆ n.children) :
              ∃ visits nodes', Visited nodes visits nodes' := by
            induction nodes with
            | nil => exact ⟨[], [], .nil⟩
            | cons c nodes ihList =>
                obtain ⟨mem, inside⟩ := List.cons_subset.1 inside
                obtain ⟨visits, c', first⟩ := ih c mem
                obtain ⟨visits', nodes', later⟩ := ihList inside
                exact ⟨_, _, first.cons later⟩
          obtain ⟨visits, ns, below⟩ := children _ (List.Subset.refl _)
          exact ⟨_, n, below.one hole n⟩
  induction nodes with
  | nil => exact ⟨[], [], .nil⟩
  | cons n nodes ih =>
      obtain ⟨visits, n', first⟩ := one n
      obtain ⟨visits', nodes', later⟩ := ih
      exact ⟨_, _, first.cons later⟩

/-- One node after the other is given, each once, with other nodes in the places of its children. -/
theorem forall₂_postorder (h : Visited nodes visits nodes') :
    List.Forall₂
      (fun n visit => ∃ ns, ns.length = n.children.length ∧ visit.given = n.withChildren ns)
      (nodes.flatMap postorder) visits := by
  induction h with
  | nil => exact .nil
  | hole _ ih => exact ih
  | node some_ below _ ihBelow ihBehind =>
      rw [List.flatMap_cons, postorder_eq some_, List.append_assoc]
      exact List.rel_append ihBelow (.cons ⟨_, below.length_eq, rfl⟩ ihBehind)

end Visited

/-! ## Modifiers with a state -/

variable {ε σ : Type}

/-- The modifier is called for the visits, one after the other, and returns what they say; each call
starts in the state that the one before it has left. -/
inductive Performed (f : Node → EStateM ε σ Node) : σ → List Visit → σ → Prop
  | nil {s : σ} : Performed f s [] s
  | cons {visit : Visit} {visits : List Visit} {s s₁ s₂ : σ} :
    (f visit.given).run s = .ok visit.result s₁ → Performed f s₁ visits s₂ →
    Performed f s (visit :: visits) s₂

variable {f : Node → EStateM ε σ Node} {n result : Node} {nodes results : List Node}
  {visits visits' : List Visit} {s s' : σ}

theorem Performed.append_iff :
    Performed f s (visits ++ visits') s' ↔
      ∃ s₁, Performed f s visits s₁ ∧ Performed f s₁ visits' s' := by
  induction visits generalizing s with
  | nil =>
      refine ⟨fun h => ⟨s, .nil, h⟩, ?_⟩
      rintro ⟨_, none, h⟩
      cases none
      exact h
  | cons visit visits ih =>
      constructor
      · intro h
        cases h with
        | cons called h =>
            obtain ⟨s₁, first, second⟩ := ih.1 h
            exact ⟨s₁, .cons called first, second⟩
      · rintro ⟨s₁, first, second⟩
        cases first with
        | cons called first => exact .cons called (ih.2 ⟨s₁, first, second⟩)

theorem Performed.single_iff {visit : Visit} :
    Performed f s [visit] s' ↔ (f visit.given).run s = .ok visit.result s' := by
  refine ⟨fun h => ?_, fun called => .cons called .nil⟩
  cases h with
  | cons called none =>
      cases none
      exact called

theorem giveM_of_ne_missing (some_ : n ≠ missing) : giveM f n = f n := by
  cases n with
  | missing => exact absurd rfl some_
  | _ => rfl

theorem transformM_missing : transformM f missing = pure missing := rfl

theorem withChildren_ne_missing (some_ : n ≠ missing) (ns : List Node) :
    n.withChildren ns ≠ missing := by
  unfold withChildren
  split <;> first | assumption | exact nofun

/-- A node that is there is given to the modifier when its children have been dealt with. -/
theorem run_transformM_of_ok {ns : List Node} {s₁ : σ} (some_ : n ≠ missing)
    (below : (n.children.mapM (transformM f)).run s = .ok ns s₁) :
    (n.transformM f).run s = (f (n.withChildren ns)).run s₁ := by
  rw [transformM_eq, run_bind_of_ok below, giveM_of_ne_missing (withChildren_ne_missing some_ ns)]

/-- The visits that are performed lead to the results. -/
theorem Visited.run_mapM (h : Visited nodes visits results) (performed : Performed f s visits s') :
    (nodes.mapM (transformM f)).run s = .ok results s' := by
  induction h generalizing s s' with
  | nil =>
      cases performed
      rfl
  | hole _ ih =>
      rw [List.mapM_cons, transformM_missing, pure_bind, run_bind_of_ok (ih performed)]
      rfl
  | node some_ _ _ ihBelow ihBehind =>
      obtain ⟨s₁, below, performed⟩ := Performed.append_iff.1 performed
      cases performed with
      | cons called behind =>
          have here := run_transformM_of_ok some_ (ihBelow below)
          rw [List.mapM_cons, run_bind_of_ok (here.trans called), run_bind_of_ok (ihBehind behind)]
          rfl

/-- What holds of each tree of a list holds of the list. -/
theorem exists_visits_mapM
    (each : ∀ n ∈ nodes, ∀ {s s' result}, (n.transformM f).run s = .ok result s' →
      ∃ visits, Visited [n] visits [result] ∧ Performed f s visits s')
    (ran : (nodes.mapM (transformM f)).run s = .ok results s') :
    ∃ visits, Visited nodes visits results ∧ Performed f s visits s' := by
  induction nodes generalizing s results with
  | nil =>
      cases ran
      exact ⟨[], .nil, .nil⟩
  | cons n nodes ih =>
      rw [List.mapM_cons] at ran
      obtain ⟨n', s₁, ranHere, ran⟩ := exists_of_run_bind ran
      obtain ⟨ns', s₂, ranLater, ran⟩ := exists_of_run_bind ran
      cases ran
      obtain ⟨visits, here, performed⟩ := each n (.head _) ranHere
      obtain ⟨visits', later, performed'⟩ := ih (fun n mem => each n (.tail _ mem)) ranLater
      exact ⟨_, here.cons later, Performed.append_iff.2 ⟨s₁, performed, performed'⟩⟩

/-- A transformation that returns has performed visits of all nodes. -/
theorem exists_visits (ran : (n.transformM f).run s = .ok result s') :
    ∃ visits, Visited [n] visits [result] ∧ Performed f s visits s' := by
  induction n using childInduction generalizing s result s' with
  | step n ih =>
      by_cases hole : n = missing
      · subst hole
        cases ran
        exact ⟨[], .hole .nil, .nil⟩
      · rw [transformM_eq] at ran
        obtain ⟨ns, s₁, ranBelow, ran⟩ := exists_of_run_bind ran
        obtain ⟨visits, below, performed⟩ := exists_visits_mapM (fun c mem => ih c mem) ranBelow
        rw [giveM_of_ne_missing (withChildren_ne_missing hole ns)] at ran
        exact ⟨_, below.one hole result,
          Performed.append_iff.2 ⟨s₁, performed, Performed.single_iff.2 ran⟩⟩

/-- A transformation performs the visits of all nodes, and comes to what these lead to. -/
theorem run_transformM_eq_ok_iff :
    (n.transformM f).run s = .ok result s' ↔
      ∃ visits, Visited [n] visits [result] ∧ Performed f s visits s' := by
  refine ⟨exists_visits, ?_⟩
  rintro ⟨visits, visited, performed⟩
  have ran := visited.run_mapM performed
  rw [List.mapM_cons] at ran
  obtain ⟨n', s₁, ranHere, ran⟩ := exists_of_run_bind ran
  cases ran
  exact ranHere

/-! ## Exits -/

/-- Of the visits of the nodes the first have been performed, and the modifier has left the next one by
the exit. -/
def BrokenOff (f : Node → EStateM ε σ Node) (nodes : List Node) (s : σ) (exit : ε) (s' : σ) : Prop :=
  ∃ before visit after results s₁, Visited nodes (before ++ visit :: after) results ∧
    Performed f s before s₁ ∧ (f visit.given).run s₁ = .error exit s'

theorem brokenOff_mapM {exit : ε}
    (each : ∀ n ∈ nodes, ∀ {s s'}, (n.transformM f).run s = .error exit s' →
      BrokenOff f [n] s exit s')
    (exits : (nodes.mapM (transformM f)).run s = .error exit s') :
    BrokenOff f nodes s exit s' := by
  induction nodes generalizing s with
  | nil => cases exits
  | cons n nodes ih =>
      rw [List.mapM_cons] at exits
      rcases exit_of_run_bind exits with ended | ⟨n', s₁, ran, exits⟩
      · obtain ⟨before, visit, after, results, s₁, visited, performed, left⟩ :=
          each n (.head _) ended
        obtain ⟨n', rfl⟩ := List.length_eq_one_iff.1 visited.length_eq
        obtain ⟨visits, nodes', later⟩ := Visited.exists_of_nodes nodes
        refine ⟨before, visit, after ++ visits, n' :: nodes', s₁, ?_, performed, left⟩
        have whole := visited.cons later
        rwa [List.append_assoc] at whole
      · rcases exit_of_run_bind exits with later | ⟨_, _, _, returns⟩
        · obtain ⟨visits, here, performed⟩ := exists_visits ran
          obtain ⟨before, visit, after, results, s₂, visited, performed', left⟩ :=
            ih (fun n mem => each n (.tail _ mem)) later
          refine ⟨visits ++ before, visit, after, n' :: results, s₂, ?_,
            Performed.append_iff.2 ⟨s₁, performed, performed'⟩, left⟩
          rw [List.append_assoc]
          exact here.cons visited
        · cases returns

/-- A transformation that is broken off is so by the modifier, at one of the visits. -/
theorem brokenOff_transformM {exit : ε} (exits : (n.transformM f).run s = .error exit s') :
    BrokenOff f [n] s exit s' := by
  induction n using childInduction generalizing s s' with
  | step n ih =>
      by_cases hole : n = missing
      · subst hole
        cases exits
      · rw [transformM_eq] at exits
        rcases exit_of_run_bind exits with ended | ⟨ns, s₁, ran, exits⟩
        · obtain ⟨before, visit, after, ns, s₁, below, performed, left⟩ :=
            brokenOff_mapM (fun c mem => ih c mem) ended
          refine ⟨before, visit, after ++ [⟨n.withChildren ns, missing⟩], [missing], s₁, ?_,
            performed, left⟩
          have whole := below.one hole missing
          rwa [List.append_assoc] at whole
        · rw [giveM_of_ne_missing (withChildren_ne_missing hole ns)] at exits
          obtain ⟨visits, below, performed⟩ := exists_visits_mapM (fun _ _ => exists_visits) ran
          exact ⟨visits, ⟨n.withChildren ns, missing⟩, [], [missing], s₁,
            below.one hole missing, performed, exits⟩

end Node

end MonkeyLang
