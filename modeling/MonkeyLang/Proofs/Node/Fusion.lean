import MonkeyLang.Proofs.Node.Postorder
import MonkeyLang.Proofs.Node.Sequential

/-!
# Two transformations in one

A modifier that changes nothing but identifiers and literals, and makes such nodes of them, leaves all
that stands around them. So a second transformation finds the same nodes that it would have found
without the first, and can do the work of both, as long as the order does not matter in which the two
modifiers have their effects.

* `Node.transformM_pure`: what gives back all nodes leaves the tree.
* `Node.transformM_bind_transformM` is the fusion of two transformations, for effects of any kind.
* `transformation_visits_each_node_once` puts together what a transformation does.
-/

namespace MonkeyLang

variable {m : Type → Type} [Monad m]

/-- The order of two computations does not matter. -/
def Swaps {α β : Type} (c : m α) (d : m β) : Prop :=
  (do let a ← c; let b ← d; return (a, b)) = (do let b ← d; let a ← c; return (a, b))

namespace Swaps

variable [LawfulMonad m] {α β γ : Type} {c : m α} {d : m β}

theorem symm (h : Swaps c d) : Swaps d c := by
  have same := congrArg (Prod.swap <$> ·) h
  simp only [map_bind, map_pure, Prod.swap_prod_mk] at same
  exact same.symm

/-- It does not matter for what comes behind them. -/
theorem bind_eq (h : Swaps c d) (next : α → β → m γ) :
    (do let a ← c; let b ← d; next a b) = (do let b ← d; let a ← c; next a b) := by
  have same := congrArg (· >>= fun p => next p.1 p.2) h
  simpa only [bind_assoc, pure_bind] using same

theorem pure_left (a : α) (d : m β) : Swaps (pure a) d := by
  simp only [Swaps, pure_bind]

/-- A sequence of computations can be put behind one that each of them can be put behind. -/
theorem sequential (d : m β) : Sequential fun α (c : m α) => Swaps c d where
  pure a := pure_left a d
  bind {α γ c next} first later := by
    unfold Swaps
    calc (do let b ← c >>= next; let e ← d; return (b, e))
        = (do let a ← c; let b ← next a; let e ← d; return (b, e)) := by rw [bind_assoc]
      _ = (do let a ← c; let e ← d; let b ← next a; return (b, e)) :=
          bind_congr fun a => (later a).bind_eq fun b e => Pure.pure (b, e)
      _ = (do let e ← d; let a ← c; let b ← next a; return (b, e)) :=
          Swaps.bind_eq first fun a e => do let b ← next a; return (b, e)
      _ = (do let e ← d; let b ← c >>= next; return (b, e)) := by simp only [bind_assoc]

theorem mapM {f : γ → m α} (each : ∀ x, Swaps (f x) d) (xs : List γ) : Swaps (xs.mapM f) d := by
  induction xs with
  | nil => exact pure_left [] d
  | cons x xs ih =>
      rw [List.mapM_cons]
      exact (sequential d).bind (each x) fun _ =>
        (sequential d).bind ih fun _ => (sequential d).pure _

end Swaps

section

variable [LawfulMonad m] {α β γ : Type}

/-- What comes behind a list may rely on its length. -/
theorem mapM_bind_congr {f : α → m β} {xs : List α} {next next' : List β → m γ}
    (same : ∀ ys, ys.length = xs.length → next ys = next' ys) :
    xs.mapM f >>= next = xs.mapM f >>= next' := by
  induction xs generalizing next next' with
  | nil =>
      rw [List.mapM_nil, pure_bind, pure_bind, same [] rfl]
  | cons x xs ih =>
      simp only [List.mapM_cons, bind_assoc, pure_bind]
      refine bind_congr fun y => ih fun ys length => same (y :: ys) ?_
      rw [List.length_cons, List.length_cons, length]

/-- Two passes over a list are one, where the effects of the second pass can be put first. -/
theorem mapM_bind_mapM {g : α → m β} {f : β → m γ} {h : α → m γ} {xs : List α}
    (each : ∀ x ∈ xs, g x >>= f = h x) (swaps : ∀ x y, Swaps (g x) (f y)) :
    (xs.mapM g >>= fun ys => ys.mapM f) = xs.mapM h := by
  induction xs with
  | nil => simp
  | cons x xs ih =>
      calc ((x :: xs).mapM g >>= fun ys => ys.mapM f)
          = (do let y ← g x; let ys ← xs.mapM g; let z ← f y; let zs ← ys.mapM f
                return z :: zs) := by simp only [List.mapM_cons, bind_assoc, pure_bind]
        _ = (do let y ← g x; let z ← f y; let ys ← xs.mapM g; let zs ← ys.mapM f
                return z :: zs) :=
            bind_congr fun y => (Swaps.mapM (fun x => swaps x y) xs).bind_eq fun ys z => do
              let zs ← ys.mapM f
              return z :: zs
        _ = (do let z ← g x >>= f; let zs ← xs.mapM g >>= fun ys => ys.mapM f
                return z :: zs) := by simp only [bind_assoc]
        _ = (x :: xs).mapM h := by
            rw [ih fun x mem => each x (.tail _ mem), each x (.head _), List.mapM_cons]

end

namespace Node

/-- Identifiers and literals of integers, truth values and strings. -/
def isAtom : Node → Bool
  | ident _ _ | int _ _ | bool _ _ | str _ _ => true
  | _ => false

theorem isAtom_withChildren (n : Node) (ns : List Node) : (n.withChildren ns).isAtom = n.isAtom := by
  unfold withChildren
  split <;> rfl

/-- The modifier changes identifiers and literals only, and makes such nodes of them. It has no effects
elsewhere. -/
structure ChangesAtoms (g : Node → m Node) : Prop where
  /-- What comes behind may rely on an identifier or a literal. -/
  atom : ∀ n, n.isAtom = true → ∀ {α : Type} (next next' : Node → m α),
    (∀ n', n'.isAtom = true → next n' = next' n') → g n >>= next = g n >>= next'
  other : ∀ n, n.isAtom = false → g n = pure n

variable [LawfulMonad m] {f g : Node → m Node} {n : Node}

theorem transformM_atom (f : Node → m Node) (is : n.isAtom = true) : n.transformM f = f n := by
  cases n with
  | ident | int | bool | str => simp [transformM, belowM, giveM]
  | _ => cases is

omit [LawfulMonad m] in
theorem giveM_pure (n : Node) : giveM (m := m) pure n = pure n := by
  cases n <;> rfl

/-- What gives back all nodes leaves the tree. -/
theorem transformM_pure (n : Node) : n.transformM (m := m) pure = pure n := by
  induction n using childInduction with
  | step n ih =>
      have children (nodes : List Node) (inside : nodes ⊆ n.children) :
          nodes.mapM (m := m) (transformM pure) = pure nodes := by
        induction nodes with
        | nil => rfl
        | cons c nodes ihList =>
            obtain ⟨mem, inside⟩ := List.cons_subset.1 inside
            rw [List.mapM_cons, ih c mem, ihList inside, pure_bind, pure_bind]
      rw [transformM_eq, children _ (List.Subset.refl _), pure_bind, withChildren_children, giveM_pure]

/-- A modifier of identifiers and literals leaves a node that is none, but for its children. -/
theorem ChangesAtoms.transformM_eq (h : ChangesAtoms g) (other : n.isAtom = false) :
    n.transformM g = do return n.withChildren (← n.children.mapM (transformM g)) := by
  have stays (ns : List Node) : giveM g (n.withChildren ns) = pure (n.withChildren ns) := by
    have other' : (n.withChildren ns).isAtom = false := by rw [isAtom_withChildren, other]
    generalize n.withChildren ns = n' at other' ⊢
    cases n' with
    | missing => rfl
    | _ => exact h.other _ other'
  rw [Node.transformM_eq]
  exact bind_congr stays

/-- Two transformations are one with both modifiers, one behind the other: the first changes
identifiers and literals only, and the order does not matter in which the two have their effects. -/
theorem transformM_bind_transformM (h : ChangesAtoms g) (swaps : ∀ n n', Swaps (g n) (f n'))
    (n : Node) : n.transformM g >>= transformM f = n.transformM fun n => g n >>= f := by
  -- Every part of the first transformation can be put behind every part of the second.
  have apart (c c' : Node) : Swaps (c.transformM g) (c'.transformM f) :=
    (Swaps.sequential (c'.transformM f)).transformM
      (fun n => ((Swaps.sequential (g n)).transformM (fun n' => (swaps n n').symm) c').symm) c
  induction n using childInduction with
  | step n ih =>
      cases is : n.isAtom with
      | true =>
          rw [transformM_atom g is, transformM_atom _ is]
          exact h.atom n is _ _ fun n' is' => transformM_atom f is'
      | false =>
          calc n.transformM g >>= transformM f
              = n.children.mapM (transformM g) >>= fun ns => (n.withChildren ns).transformM f := by
                rw [h.transformM_eq is]
                simp only [bind_assoc, pure_bind]
            _ = n.children.mapM (transformM g) >>= fun ns =>
                  ns.mapM (transformM f) >>= fun ws => giveM f (n.withChildren ws) :=
                mapM_bind_congr fun ns same => by
                  rw [transformM_eq, children_withChildren same]
                  exact mapM_bind_congr fun ws same' => by
                    rw [withChildren_withChildren same (same'.trans same)]
            _ = (n.children.mapM (transformM g) >>= fun ns => ns.mapM (transformM f)) >>= fun ws =>
                  giveM f (n.withChildren ws) := by rw [bind_assoc]
            _ = n.children.mapM (transformM fun n => g n >>= f) >>= fun ws =>
                  giveM f (n.withChildren ws) := by
                rw [mapM_bind_mapM (fun c mem => ih c mem) apart]
            _ = n.transformM fun n => g n >>= f := by
                rw [transformM_eq]
                refine bind_congr fun ws => ?_
                have is' : (n.withChildren ws).isAtom = false := by rw [isAtom_withChildren, is]
                generalize n.withChildren ws = n' at is' ⊢
                cases n' with
                | missing => rfl
                | _ =>
                    rw [giveM, giveM, h.other _ is', pure_bind]
                    all_goals exact nofun

/-- The tree that a modifier without effects makes of a tree. -/
def transform (f : Node → Node) (n : Node) : Node := Id.run (n.transformM fun n => pure (f n))

/-- The modifier changes identifiers and literals only, into identifiers and literals. -/
structure KeepsAtoms (g : Node → Node) : Prop where
  atom : ∀ n : Node, n.isAtom = true → (g n).isAtom = true
  other : ∀ n : Node, n.isAtom = false → g n = n

theorem KeepsAtoms.changesAtoms {g : Node → Node} (keeps : KeepsAtoms g) :
    ChangesAtoms fun n => (pure (g n) : m Node) where
  atom n is _ next next' same := by rw [pure_bind, pure_bind, same _ (keeps.atom n is)]
  other n none := congrArg pure (keeps.other n none)

theorem transform_transform {f g : Node → Node} (keeps : KeepsAtoms g) (n : Node) :
    (n.transform g).transform f = n.transform (f ∘ g) :=
  congrArg Id.run (transformM_bind_transformM (m := Id) (f := fun n => pure (f n))
    keeps.changesAtoms (fun _ _ => .pure_left _ _) n)

theorem transform_id (n : Node) : n.transform id = n :=
  congrArg Id.run (transformM_pure (m := Id) n)

end Node

open Node

/-- A transformation calls its modifier, whatever state and exits this has, once for each node of the
tree: the calls are those of a `Visited` tree, in which the children of a node come before it and from
left to right, each node is given with what has come of its children in their places, and holes stay.
The nodes given are those of the tree in their order, but for their children, so nothing that the
modifier has returned is given to it; there are as many calls as nodes. Only the modifier can break a
transformation off. A modifier that gives back all nodes leaves the tree; and two transformations, the
first of which changes identifiers and literals only, into such nodes, are one with both modifiers,
also with effects, if the order does not matter in which the two modifiers have theirs. -/
theorem transformation_visits_each_node_once :
    (∀ {ε σ : Type} (f : Node → EStateM ε σ Node) (tree : Node) (s s' : σ),
      (∀ result, (tree.transformM f).run s = .ok result s' ↔
        ∃ visits, Visited [tree] visits [result] ∧ Performed f s visits s') ∧
      ∀ exit, (tree.transformM f).run s = .error exit s' → BrokenOff f [tree] s exit s') ∧
    (∀ (tree result : Node) (visits : List Visit), Visited [tree] visits [result] →
      visits.length = tree.postorder.length ∧
      List.Forall₂
        (fun n visit => ∃ ns, ns.length = n.children.length ∧ visit.given = n.withChildren ns)
        tree.postorder visits) ∧
    (∀ tree : Node, tree.transform id = tree) ∧
    (∀ f g : Node → Node, KeepsAtoms f → KeepsAtoms g →
      ∀ tree : Node, (tree.transform g).transform f = tree.transform (f ∘ g)) ∧
    ∀ {m : Type → Type} [Monad m] [LawfulMonad m],
      (∀ tree : Node, tree.transformM pure = (pure tree : m Node)) ∧
      ∀ f g : Node → m Node, ChangesAtoms g → (∀ n n', Swaps (g n) (f n')) →
        ∀ tree : Node, tree.transformM g >>= transformM f = tree.transformM fun n => g n >>= f := by
  refine ⟨fun f tree s s' => ⟨fun result => run_transformM_eq_ok_iff, fun exit =>
    brokenOff_transformM⟩, fun tree result visits visited => ?_, transform_id,
    fun f g _ keeps => transform_transform keeps,
    ⟨transformM_pure, fun f g changes swaps => transformM_bind_transformM changes swaps⟩⟩
  have nodes := visited.forall₂_postorder
  rw [List.flatMap_singleton] at nodes
  exact ⟨nodes.length_eq.symm, nodes⟩

/-- A let statement with a call that has a hole among its arguments. -/
theorem transformation_visits_each_node_once_call :
    let name : Name := ⟨none, "x"⟩
    let tree (callee : Text) (n : Int) : Node :=
      .letStmt none name (.call none (.ident none callee) [.int none n, .missing])
    let rename : Node → Node
      | .ident t _ => .ident t "g"
      | n => n
    let double : Node → Node
      | .int t n => .int t (2 * n)
      | n => n
    let counted (n : Node) : EStateM Empty Nat Node := do
      modify (· + 1)
      return double n
    ((tree "f" 1).transformM counted).run 0 = .ok (tree "f" 2) 4 ∧
      (∃ visits, Visited [tree "f" 1] visits [tree "f" 2] ∧ Performed counted 0 visits 4 ∧
        visits.length = 4) ∧
      (tree "f" 1).postorder.map Node.kindName =
        ["Identifier", "IntegerLiteral", "CallExpression", "LetStatement"] ∧
      KeepsAtoms rename ∧ KeepsAtoms double ∧
      ((tree "f" 1).transform rename).transform double = (tree "f" 1).transform (double ∘ rename) ∧
      (tree "f" 1).transformM (fun n => pure (rename n)) >>= transformM counted =
        (tree "f" 1).transformM fun n => pure (rename n) >>= counted := by
  intro name tree rename double counted
  obtain ⟨calls, nodes, -, fused, effects⟩ := transformation_visits_each_node_once
  have ran : ((tree "f" 1).transformM counted).run 0 = .ok (tree "f" 2) 4 := rfl
  have renames : KeepsAtoms rename := by
    constructor <;> intro n is <;> cases n <;> first | rfl | cases is
  have doubles : KeepsAtoms double := by
    constructor <;> intro n is <;> cases n <;> first | rfl | cases is
  obtain ⟨visits, visited, performed⟩ := ((calls counted (tree "f" 1) 0 4).1 _).1 ran
  refine ⟨ran, ⟨visits, visited, performed, (nodes _ _ _ visited).1⟩, rfl, renames, doubles,
    fused double rename doubles renames _, ?_⟩
  exact effects.2 counted (fun n => pure (rename n)) renames.changesAtoms
    (fun _ _ => Swaps.pure_left _ _) _

end MonkeyLang
