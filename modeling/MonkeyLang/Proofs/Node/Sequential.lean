import MonkeyLang.Node.Transform

/-!
# Properties that sequencing keeps

A property of computations is `Sequential` if computations without effect have it and a sequence
of computations that have it has it, too. What a transformation of a tree does is a sequence of
what is done to its nodes, so it has every sequential property that these have, whatever the tree.

* `Sequential.transformM` is this fact for the whole tree, `Sequential.belowM` for what is below
  a node.
* `Sequential.belowAllM` and `Sequential.belowPairsM` are the same for lists of nodes and of pairs.
-/

namespace MonkeyLang

variable {m : Type → Type} [Monad m]

/-- A property that `pure` has and `>>=` keeps. -/
structure Sequential (K : (α : Type) → m α → Prop) : Prop where
  pure : ∀ {α : Type} (a : α), K α (pure a)
  bind : ∀ {α β : Type} {c : m α} {next : α → m β}, K α c → (∀ a, K β (next a)) → K β (c >>= next)

namespace Sequential

variable {K : (α : Type) → m α → Prop} {f : Node → m Node}

theorem giveM (h : Sequential K) (hf : ∀ node, K _ (f node)) (node : Node) :
    K _ (Node.giveM f node) := by
  cases node with
  | missing => exact h.pure _
  | _ => exact hf _

mutual

theorem belowM (h : Sequential K) (hf : ∀ node, K _ (f node)) : ∀ node : Node, K _ (node.belowM f)
  | .missing | .ident _ _ | .int _ _ | .bool _ _ | .str _ _ | .piece _ => h.pure _
  | .program ss | .block _ ss | .array _ ss => h.bind (belowAllM h hf ss) fun _ => h.pure _
  | .hash _ ps => h.bind (belowPairsM h hf ps) fun _ => h.pure _
  | .letStmt _ _ v | .returnStmt _ v | .exprStmt _ v | .unary _ _ v =>
    h.bind (belowM h hf v) fun _ => h.bind (h.giveM hf _) fun _ => h.pure _
  | .binary _ l _ r | .index _ l r =>
    h.bind (belowM h hf l) fun _ => h.bind (h.giveM hf _) fun _ =>
      h.bind (belowM h hf r) fun _ => h.bind (h.giveM hf _) fun _ => h.pure _
  | .ifElse _ c t e =>
    h.bind (belowM h hf c) fun _ => h.bind (h.giveM hf _) fun _ =>
      h.bind (belowM h hf t) fun _ => h.bind (h.giveM hf _) fun _ =>
        h.bind (belowM h hf e) fun _ => h.bind (h.giveM hf _) fun _ => h.pure _
  | .fnLit _ ps b | .macroLit _ ps b =>
    h.bind (belowAllM h hf ps) fun _ =>
      h.bind (belowM h hf b) fun _ => h.bind (h.giveM hf _) fun _ => h.pure _
  | .call _ c as =>
    h.bind (belowM h hf c) fun _ => h.bind (h.giveM hf _) fun _ =>
      h.bind (belowAllM h hf as) fun _ => h.pure _

theorem belowAllM (h : Sequential K) (hf : ∀ node, K _ (f node)) :
    ∀ nodes : List Node, K _ (Node.belowAllM f nodes)
  | [] => h.pure _
  | node :: nodes =>
    h.bind (belowM h hf node) fun _ => h.bind (h.giveM hf _) fun _ =>
      h.bind (belowAllM h hf nodes) fun _ => h.pure _

theorem belowPairsM (h : Sequential K) (hf : ∀ node, K _ (f node)) :
    ∀ pairs : List (Node × Node), K _ (Node.belowPairsM f pairs)
  | [] => h.pure _
  | (key, value) :: pairs =>
    h.bind (belowM h hf key) fun _ => h.bind (h.giveM hf _) fun _ =>
      h.bind (belowM h hf value) fun _ => h.bind (h.giveM hf _) fun _ =>
        h.bind (belowPairsM h hf pairs) fun _ => h.pure _

end

theorem transformM (h : Sequential K) (hf : ∀ node, K _ (f node)) (node : Node) :
    K _ (node.transformM f) :=
  h.bind (h.belowM hf node) (h.giveM hf)

end Sequential

end MonkeyLang
