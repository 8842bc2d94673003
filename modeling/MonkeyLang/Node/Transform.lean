import MonkeyLang.Node

/-!
# Transforming a tree

`Node.transformM f` transforms a tree from its leaves up: `f` is given each node when the nodes
below it have been replaced by their own results, and what `f` returns takes the node's place.
Nodes of one parent are transformed in the order of the text. What `f` returns is not transformed
again, a hole stays a hole, and the name of a let statement is not a node. A place of a piece is a
leaf.

`f` may have effects of any kind, so the order of the visits is part of the result.

* `Node.belowM` transforms all that is below a node, and leaves the node itself.
* `Node.transformM` transforms the whole tree.
-/

namespace MonkeyLang

namespace Node

variable {m : Type → Type} [Monad m]

/-- Give a node over, unless there is none. -/
def giveM (f : Node → m Node) : Node → m Node
  | missing => return missing
  | node => f node

mutual

/-- Transform the trees below a node. -/
def belowM (f : Node → m Node) : Node → m Node
  | missing => return missing
  | program statements => return program (← belowAllM f statements)
  | block t statements => return block t (← belowAllM f statements)
  | letStmt t name value => return letStmt t name (← giveM f (← value.belowM f))
  | returnStmt t value => return returnStmt t (← giveM f (← value.belowM f))
  | exprStmt t value => return exprStmt t (← giveM f (← value.belowM f))
  | ident t name => return ident t name
  | int t value => return int t value
  | bool t value => return bool t value
  | str t value => return str t value
  | array t elements => return array t (← belowAllM f elements)
  | hash t pairs => return hash t (← belowPairsM f pairs)
  | unary t op operand => return unary t op (← giveM f (← operand.belowM f))
  | binary t left op right => do
    let left ← giveM f (← left.belowM f)
    let right ← giveM f (← right.belowM f)
    return binary t left op right
  | ifElse t condition consequence alternative => do
    let condition ← giveM f (← condition.belowM f)
    let consequence ← giveM f (← consequence.belowM f)
    let alternative ← giveM f (← alternative.belowM f)
    return ifElse t condition consequence alternative
  | fnLit t parameters body => do
    let parameters ← belowAllM f parameters
    let body ← giveM f (← body.belowM f)
    return fnLit t parameters body
  | macroLit t parameters body => do
    let parameters ← belowAllM f parameters
    let body ← giveM f (← body.belowM f)
    return macroLit t parameters body
  | call t callee arguments => do
    let callee ← giveM f (← callee.belowM f)
    let arguments ← belowAllM f arguments
    return call t callee arguments
  | index t container position => do
    let container ← giveM f (← container.belowM f)
    let position ← giveM f (← position.belowM f)
    return index t container position
  | piece id => return piece id

/-- Transform the trees of a list from left to right. -/
def belowAllM (f : Node → m Node) : List Node → m (List Node)
  | [] => return []
  | node :: nodes => do
    let node ← giveM f (← node.belowM f)
    let nodes ← belowAllM f nodes
    return node :: nodes

/-- Transform the pairs of a hash from left to right, each key before its value. -/
def belowPairsM (f : Node → m Node) : List (Node × Node) → m (List (Node × Node))
  | [] => return []
  | (key, value) :: pairs => do
    let key ← giveM f (← key.belowM f)
    let value ← giveM f (← value.belowM f)
    let pairs ← belowPairsM f pairs
    return (key, value) :: pairs

end

/-- Transform a tree from its leaves up. -/
def transformM (f : Node → m Node) (node : Node) : m Node := do giveM f (← node.belowM f)

end Node

end MonkeyLang
