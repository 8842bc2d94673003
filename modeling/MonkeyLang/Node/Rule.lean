import MonkeyLang.Node.Render
import MonkeyLang.Node.Transform

/-!
# Transforming by rules

A rule replaces the nodes it matches. `Rule.transform` transforms a tree by a list of rules, of
which the first that matches a node decides, and records every node the rules were tried on.
-/

namespace MonkeyLang

namespace Node

/-- A rule that replaces nodes. What it makes carries no token. -/
inductive Rule where
  /-- Replace an integer literal. -/
  | int (source target : Int)
  /-- Replace an identifier. -/
  | rename (source target : Text)
  /-- Replace all nodes of a form. -/
  | replace (kindName : String) (target : Node)

namespace Rule

/-- What a rule makes of a node it matches. -/
def replacement? : Rule → Node → Option Node
  | int source target, .int _ value => if value = source then some (.int none target) else none
  | rename source target, .ident _ name => if name = source then some (.ident none target) else none
  | replace kindName target, node => if node.kindName = kindName then some target else none
  | _, _ => none

/-- A transformation: the nodes it visited, by form and text, what became of the tree, and whether
the root was left in its place. -/
structure Transformation where
  visits : List (String × Text)
  result : Node
  rootKept : Bool

/-- Try the rules on a node, and record the visit. -/
def visit (rules : List Rule) (node : Node) : StateM (List (String × Text) × Bool) Node := do
  let target? := rules.findSome? (·.replacement? node)
  modify fun (visits, _) => ((node.kindName, node.render) :: visits, target?.isNone)
  return target?.getD node

/-- Transform a tree by rules. The root is visited last. -/
def transform (rules : List Rule) (node : Node) : Transformation :=
  let (result, visits, rootKept) := (node.transformM (visit rules)).run ([], true)
  ⟨visits.reverse, result, rootKept⟩

end Rule

end Node

end MonkeyLang
