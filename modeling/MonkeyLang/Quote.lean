import MonkeyLang.Machine
import MonkeyLang.Node.Transform

/-!
# Quotation

`quote(x)` is a copy of the piece of program `x` as a value. Inside `x` each `unquote(y)` stands
for the value of `y`, as a literal or, if it is a quotation itself, as the piece of program it
quotes. What an unquotation puts in is not searched for unquotations.

A quotation that is put in twice stands in both places as one piece. When such a tree is quoted
again, the piece is copied once; all that is done to the copy at its first place is there at the
second, where it is searched once more: so an unquotation inside the piece is evaluated once, but
a piece that is an unquotation itself is evaluated at each place.

* `Quote.copy` copies a tree and the pieces it refers to.
* `Quote.unquote` replaces one node, and what is below it if it is a place of a piece.
* `Quote.quote` is the quoting form.
-/

namespace MonkeyLang

namespace Quote

/-- The name of the quoting form. -/
def quoteName : Text := "quote"

/-- The name of the form that a quotation replaces by a value. -/
def unquoteName : Text := "unquote"

/-- The literal of a truth value. -/
def boolLiteral (b : Bool) : Node :=
  if b then .bool (some ⟨.kwTrue, "true", .start⟩) true
  else .bool (some ⟨.kwFalse, "false", .start⟩) false

/-- The piece of program that denotes a value. -/
def literal : Value → Except Exit Node
  | .bool b _ => .ok (boolLiteral b)
  | .int n =>
    match Decimal.write? n with
    | some text => .ok (.int (some ⟨.int, text, .start⟩) n)
    | none => .error (.halted .overlong)
  | .quote _ node => .ok node
  | .error fault => .error (.failed fault)
  | v => .error (.failed (.notQuotable v.kind))

/-- The piece of program that denotes an outcome. -/
def literalOf : Outcome → Except Exit Node
  | .value v => literal v
  | .failed fault => .error (.failed fault)
  | .returned _ => .error (.failed (.notQuotable .returnValue))

/-! ## Copies -/

/-- The pieces that have been copied, each with its copy. -/
abbrev Copies := Assoc PieceId PieceId

/-- A place of a piece becomes a place of its copy, which is made when the piece is met first. Any
other node is its own copy. Not more than `depth` pieces are met inside each other. -/
def copyPlace : Nat → Node → StateT Copies Eval Node
  | depth + 1, .piece id => do
    match (← get).get? id with
    | some copy => return .piece copy
    | none =>
      let node ← Eval.piece id
      let copy ← Eval.newPiece node
      modify (·.insert id copy)
      Eval.setPiece copy (← node.belowM (copyPlace depth))
      return .piece copy
  | _, node => return node

/-- A copy of a tree: the pieces it refers to are copied, too, and refer to each other as before.
No piece is copied twice, so that not more of them than there are stand inside each other. -/
def copy (node : Node) : Eval Node := do
  (node.transformM (copyPlace ((← get).pieces.nextId + 1))).run' []

/-! ## Unquotations -/

section Unquotation

variable (evaluate : Node → Eval Value)

/-- The value to put in for an unquotation. A return does not leave the quotation. -/
def unquoted (argument : Node) : Eval Value :=
  tryCatch (evaluate argument) fun
    | .returned _ => Eval.fail (.notQuotable .returnValue)
    | exit => throw exit

/-- What takes the place of a node, if it is an unquotation. -/
def substitute? (node : Node) : Eval (Option Node) :=
  match node with
  | .call _ (.ident _ name) arguments =>
    if name = unquoteName then
      match arguments with
      | [argument] => do
        match literal (← unquoted evaluate argument) with
        | .ok node => return some node
        | .error exit => throw exit
      | arguments => Eval.fail (.unquoteArity arguments.length)
    else return none
  | _ => return none

/-- Replace an unquotation; any other node stays. At each place of a piece, what is below it is
searched for unquotations as it has become by then, and changes in all places when the search is
over: code that is run for an unquotation in it still finds the piece as it was. Pieces that stand more
than `depth` deep inside each other overflow. -/
def unquote : Nat → Node → Eval Node
  | 0, .piece _ => throw (.halted .overflow)
  | depth + 1, .piece id => do
    let node ← (← Eval.piece id).belowM (unquote depth)
    Eval.setPiece id node
    return (← substitute? evaluate node).getD (.piece id)
  | _, node => do return (← substitute? evaluate node).getD node

/-- The value of the quoting form. -/
def quote (depth : Nat) (arguments : List Node) : Eval Value :=
  match arguments with
  | [node] => do Eval.newQuote (← (← copy node).transformM (unquote evaluate depth))
  | arguments => Eval.fail (.quoteArity arguments.length)

end Unquotation

end Quote

end MonkeyLang
