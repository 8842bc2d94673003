import MonkeyLang.Proofs.Quotation.Trees

/-!
# Substitution

What a quotation makes of a tree without pieces. Its calls of `unquote` are replaced one after the
other: from left to right, and a call after all that stands in it, so that its argument has been
rewritten when its turn comes. What takes the place of a call is not searched for calls.

The relations are on lists of trees, so that the trees right below a node are one case of them.

* `Quote.Substitutes` says what becomes of the trees when all calls have been replaced, and lists the
  replacements in their order.
* `Quote.Stops` says at which call the rewriting stops when only some have been replaced.
-/

namespace MonkeyLang

namespace Quote

/-- The calls that have been replaced, in their order: the argument as it stood by then, and the node
that has taken the place of the call. -/
abbrev Replacements := List (Node × Node)

/-- With these replacements the trees become the others. -/
inductive Substitutes : List Node → Replacements → List Node → Prop
  | nil : Substitutes [] [] []
  | stays {n : Node} {others ns others' : List Node} {rs rs' : Replacements} :
    Substitutes n.children rs ns → (n.withChildren ns).unquotes? = none →
    Substitutes others rs' others' →
    Substitutes (n :: others) (rs ++ rs') (n.withChildren ns :: others')
  | replaced {n argument new : Node} {others ns others' : List Node} {rs rs' : Replacements} :
    Substitutes n.children rs ns → (n.withChildren ns).unquotes? = some [argument] →
    Substitutes others rs' others' →
    Substitutes (n :: others) (rs ++ (argument, new) :: rs') (new :: others')

/-- After these replacements the rewriting comes to a call of `unquote` with these arguments. -/
inductive Stops : List Node → Replacements → List Node → Prop
  | here {n : Node} {others ns arguments : List Node} {rs : Replacements} :
    Substitutes n.children rs ns → (n.withChildren ns).unquotes? = some arguments →
    Stops (n :: others) rs arguments
  | inside {n : Node} {others arguments : List Node} {rs : Replacements} :
    Stops n.children rs arguments → Stops (n :: others) rs arguments
  | later {n n' : Node} {others arguments : List Node} {rs rs' : Replacements} :
    Substitutes [n] rs [n'] → Stops others rs' arguments →
    Stops (n :: others) (rs ++ rs') arguments

namespace Substitutes

variable {n n' : Node} {nodes nodes' : List Node} {rs rs' : Replacements}

theorem length_eq (h : Substitutes nodes rs nodes') : nodes'.length = nodes.length := by
  induction h with
  | nil => rfl
  | stays _ _ _ _ ih => exact congrArg (· + 1) ih
  | replaced _ _ _ _ ih => exact congrArg (· + 1) ih

theorem one_stays {ns : List Node} (below : Substitutes n.children rs ns)
    (other : (n.withChildren ns).unquotes? = none) : Substitutes [n] rs [n.withChildren ns] := by
  have h := below.stays other .nil
  rwa [List.append_nil] at h

theorem one_replaced {argument new : Node} {ns : List Node} (below : Substitutes n.children rs ns)
    (call : (n.withChildren ns).unquotes? = some [argument]) :
    Substitutes [n] (rs ++ [(argument, new)]) [new] := below.replaced call .nil

theorem cons (first : Substitutes [n] rs [n']) (later : Substitutes nodes rs' nodes') :
    Substitutes (n :: nodes) (rs ++ rs') (n' :: nodes') := by
  cases first with
  | stays below other none =>
      cases none
      rw [List.append_nil]
      exact below.stays other later
  | replaced below call none =>
      cases none
      rw [List.append_assoc]
      exact below.replaced call later

/-- Trees without calls of `unquote` become what they are, and nothing is replaced. -/
theorem of_none (h : ∀ n ∈ nodes, n.Everywhere fun n => n.unquotes? = none)
    (becomes : Substitutes nodes rs nodes') : rs = [] ∧ nodes' = nodes := by
  have children {n : Node} (h : n.Everywhere fun n => n.unquotes? = none) :
      n.unquotes? = none ∧ ∀ c ∈ n.children, c.Everywhere fun n => n.unquotes? = none := by
    cases h with
    | mk other below => exact ⟨other, below⟩
  induction becomes with
  | nil => exact ⟨rfl, rfl⟩
  | stays _ _ _ ihBelow ihLater =>
      obtain ⟨first, later⟩ := List.forall_mem_cons.1 h
      obtain ⟨rfl, rfl⟩ := ihBelow (children first).2
      obtain ⟨rfl, rfl⟩ := ihLater later
      rw [Node.withChildren_children]
      exact ⟨rfl, rfl⟩
  | replaced _ call _ ihBelow _ =>
      have first := children (h _ (.head _))
      obtain ⟨-, rfl⟩ := ihBelow first.2
      rw [Node.withChildren_children, first.1] at call
      cases call

/-- With no replacements, trees without calls of `unquote` become what they are. -/
theorem refl (h : ∀ n ∈ nodes, n.Everywhere fun n => n.unquotes? = none) :
    Substitutes nodes [] nodes := by
  have one (n : Node) (h : n.Everywhere fun n => n.unquotes? = none) : Substitutes [n] [] [n] := by
    induction h with
    | @mk n other _ ih =>
        have below : Substitutes n.children [] n.children := by
          revert ih
          generalize n.children = cs
          intro ih
          induction cs with
          | nil => exact .nil
          | cons c cs ihList =>
              exact (ih c (.head _)).cons (ihList fun c mem => ih c (.tail _ mem))
        have h := below.one_stays (by rwa [Node.withChildren_children])
        rwa [Node.withChildren_children] at h
  induction nodes with
  | nil => exact .nil
  | cons n nodes ih =>
      exact (one n (h n (.head _))).cons (ih fun n mem => h n (.tail _ mem))

end Substitutes

/-- In trees without calls of `unquote` the rewriting does not stop. -/
theorem Stops.exists_call {nodes arguments : List Node} {rs : Replacements}
    (stops : Stops nodes rs arguments) :
    ¬ ∀ n ∈ nodes, n.Everywhere fun n => n.unquotes? = none := by
  induction stops with
  | here below call =>
      intro h
      obtain ⟨other, children⟩ := h _ (.head _)
      rw [(below.of_none children).2, Node.withChildren_children, other] at call
      cases call
  | inside _ ih =>
      intro h
      obtain ⟨_, children⟩ := h _ (.head _)
      exact ih children
  | later _ _ ih => exact fun h => ih fun n mem => h n (.tail _ mem)

end Quote

end MonkeyLang
