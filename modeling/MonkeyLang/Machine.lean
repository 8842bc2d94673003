import MonkeyLang.Store
import MonkeyLang.Value.Inspect

/-!
# The state of evaluation

A machine holds the scopes, the pieces of program that quotations hold, the serial number of the
next value that gets one, and what has been put out so far. An evaluation changes the machine and
ends with a value or by an `Exit`: a fault, a value on its way to the function call around it, or a
halt of the machine itself. What an evaluation did to the machine before an exit stays done.
-/

namespace MonkeyLang

/-- A remark on the course of a run, for the log. -/
inductive Remark where
  | evaluating (length : Nat)
  | mistakes (count : Nat)
  | macroDefined (name : Text) (parameters : List Text)
  | expanded (call result : Node)
  | tooDeep (limit : Nat)
  | expansionAborted (message : Text)

/-- The wording of a remark. -/
def Remark.text : Remark → Text
  | evaluating length => s!"evaluating {length} character(s) of source"
  | mistakes count => s!"parsed program with {count} error(s)"
  | macroDefined name parameters => "defined macro " ++ name ++ "(" ++ Node.commaSep parameters ++ ")"
  | expanded call result => "expanded " ++ call.render ++ " -> " ++ result.render
  | tooDeep limit => s!"evaluation exceeded the recursion limit of {limit}"
  | expansionAborted message => "macro expansion aborted: " ++ message

/-- What a run puts out. -/
inductive Event where
  /-- A line that the program prints. -/
  | printed (line : Text)
  | remarked (remark : Remark)

/-- The state of evaluation. -/
structure Machine where
  store : Store
  pieces : Pieces
  nextSerial : Nat
  /-- The output so far, the oldest first. -/
  events : Array Event

namespace Machine

/-- A machine without scopes. -/
def empty : Machine := ⟨.empty, .empty, 0, #[]⟩

/-- Put out an event. -/
def emit (m : Machine) (event : Event) : Machine := { m with events := m.events.push event }

/-- Add a remark to the log. -/
def remark (m : Machine) (remark : Remark) : Machine := m.emit (.remarked remark)

/-- Open a scope. -/
def enter (m : Machine) (outer : Option ScopeId) (bindings : Assoc Text Value) : Machine :=
  { m with store := m.store.enter outer bindings }

/-- Bind a name in a scope. -/
def bind (m : Machine) (scope : ScopeId) (name : Text) (value : Value) : Machine :=
  { m with store := m.store.bind scope name value }

/-- The lines printed so far. -/
def printed (m : Machine) : List Text :=
  m.events.toList.filterMap fun
    | .printed line => some line
    | .remarked _ => none

/-- The remarks made so far. -/
def remarks (m : Machine) : List Remark :=
  m.events.toList.filterMap fun
    | .printed _ => none
    | .remarked remark => some remark

/-- Forget the output. -/
def clear (m : Machine) : Machine := { m with events := #[] }

end Machine

/-- How an evaluation ends without a value. -/
inductive Exit where
  | failed (fault : Fault)
  /-- A return statement gives the value of the function call around it. -/
  | returned (value : Value)
  | halted (halt : Halt)

/-- A computation on the machine. -/
abbrev Eval := EStateM Exit Machine

namespace Eval

/-- End with a fault. -/
def fail {α : Type} (fault : Fault) : Eval α := throw (.failed fault)

/-- The value of a computation that may be at fault. -/
def ofExcept {α : Type} : Except Fault α → Eval α
  | .ok a => pure a
  | .error fault => fail fault

/-- The value of a computation that may end without one. -/
def ofExit {α : Type} : Except Exit α → Eval α
  | .ok a => pure a
  | .error exit => throw exit

/-- The serial number of a new value. -/
def newSerial : Eval Nat :=
  modifyGet fun m => (m.nextSerial, { m with nextSerial := m.nextSerial + 1 })

/-- A new array. -/
def newArray (elements : List Value) : Eval Value := do return .array (← newSerial) elements

/-- The piece of a number, as it is now. -/
def piece (id : PieceId) : Eval Node := do return (← get).pieces.get id

/-- Keep a new piece. -/
def newPiece (node : Node) : Eval PieceId :=
  modifyGet fun m => (m.pieces.nextId, { m with pieces := m.pieces.add node })

/-- Change a piece. -/
def setPiece (id : PieceId) (node : Node) : Eval Unit :=
  modify fun m => { m with pieces := m.pieces.set id node }

/-- Keep a tree as a piece, so that it is one and the same wherever it is put. A node that nothing
can stand below need not be kept. -/
def keep (node : Node) : Eval Node := do
  if node.isCompound then return .piece (← newPiece node) else return node

/-- Keep the body of a function, so that it is one and the same for all functions made with it. -/
def keepBody : Node → Eval Node
  | .fnLit t parameters body => do return .fnLit t parameters (← keep body)
  | node => return node

/-- A new quotation. -/
def newQuote (node : Node) : Eval Value := do
  let node ← keep (← node.transformM keepBody)
  return .quote (← newSerial) node

/-- A new scope inside another one. -/
def newScope (outer : ScopeId) (bindings : Assoc Text Value) : Eval ScopeId :=
  modifyGet fun m => (m.store.nextId, m.enter (some outer) bindings)

/-- Bind a name in a scope. -/
def bind (scope : ScopeId) (name : Text) (value : Value) : Eval Unit :=
  modify (·.bind scope name value)

/-- A return inside the computation ends it with the returned value. -/
def catchReturn (computation : Eval Value) : Eval Value :=
  tryCatch computation fun
    | .returned value => pure value
    | exit => throw exit

/-- The text of a value. -/
def inspect (value : Value) : Eval Text := do
  match value.inspect (← get).pieces with
  | .ok text => return text
  | .error halt => throw (.halted halt)

/-- Print a value in a line of its own. The stream that it goes to takes every text. -/
def print (value : Value) : Eval Unit := do
  let text ← inspect value
  modify (·.emit (.printed text))

end Eval

/-- The end of an evaluation that the machine survives. -/
inductive Outcome where
  | value (value : Value)
  | failed (fault : Fault)
  | returned (value : Value)

namespace Outcome

/-- The value of an outcome, or a stand-in for it. -/
def toValue : Outcome → Value
  | value v | returned v => v
  | failed fault => .error fault

/-- The kind of an outcome. -/
def kind : Outcome → Kind
  | value v => v.kind
  | failed _ => .error
  | returned _ => .returnValue

/-- The text of an outcome that a user sees. -/
def inspect (pieces : Pieces) (o : Outcome) : Except Halt Text := o.toValue.inspect pieces

/-- The text that shows how an outcome is built. -/
def debug (pieces : Pieces) : Outcome → Except Halt Text
  | returned v => do return "ReturnValue(" ++ (← v.debug pieces) ++ ")"
  | o => o.toValue.debug pieces

/-- Is the outcome a fault? -/
def isError (o : Outcome) : Bool := o.kind == .error

/-- Does the outcome end the computation around it? -/
def isSignal (o : Outcome) : Bool := o.kind == .error || o.kind == .returnValue

end Outcome

/-- Run a computation to its outcome. A halt of the machine stays an error. -/
def Eval.outcome (computation : Eval Value) (m : Machine) : Except Halt Outcome × Machine :=
  match computation.run m with
  | .ok value m => (.ok (.value value), m)
  | .error (.failed fault) m => (.ok (.failed fault), m)
  | .error (.returned value) m => (.ok (.returned value), m)
  | .error (.halted halt) m => (.error halt, m)

end MonkeyLang
