import MonkeyLang.Expansion
import MonkeyLang.Parser

/-!
# Sessions

A session evaluates units of source one after the other: lines of a prompt, requests, files.
Values and macros that a unit defines are there for the next ones. A unit with mistakes in its
text, or with a call of a macro that cannot be replaced, is refused.

* `Session.eval` evaluates a unit.
* `Session.run` does so for a prompt: it tells, too, whether the result is worth showing.
-/

namespace MonkeyLang

/-- The scopes and the output of a series of units. -/
structure Session where
  machine : Machine
  /-- How deep evaluations can stand inside each other. -/
  limit : Nat

/-- What a unit comes to. -/
structure Answer where
  outcome : Outcome
  /-- The unit ended with a definition, so there is nothing to show. -/
  silent : Bool

namespace Session

/-- The outermost scope of values. -/
def values : ScopeId := 0

/-- The scope of macros. -/
def macros : ScopeId := 1

/-- The least limit of recursion. -/
def leastLimit : Nat := 50000

/-- A machine with the two outermost scopes. -/
def machine₀ : Machine := (Machine.empty.enter none []).enter none []

/-- A new session. A limit below the least one is raised to it. The limit counts the evaluations that
stand inside each other, and not the frames that each of them takes on the stack of a host. -/
def start (limit : Int) : Session := ⟨machine₀, max limit.toNat leastLimit⟩

/-- Does a program end with a let statement? -/
def endsWithLet (program : Node) : Bool :=
  match program.statements.getLast? with
  | some (.letStmt _ _ _) => true
  | _ => false

/-- The program that a unit of source is. -/
def read (source : Text) : Expand Node := do
  let parsing := parse source
  if parsing.diagnostics.isEmpty then return parsing.program
  else
    modify (·.remark (.mistakes parsing.diagnostics.length))
    throw (.mistakes parsing.diagnostics)

/-- Define the macros of a program and replace the calls of macros in it. -/
def expandProgram (limit : Nat) (program : Node) : Expand Node := do
  let program ← modifyGet (·.defineMacros macros program)
  expand limit macros program

/-- Evaluate an expanded program. Recursion without end is a fault here. -/
def evaluateProgram (limit : Nat) (program : Node) : Expand Outcome :=
  tryCatch (Expand.outcome (evaluate limit program values)) fun
    | .halted .overflow => do
      modify (·.remark (.tooDeep limit))
      return .failed .stackOverflow
    | refusal => throw refusal

/-- What a unit of source comes to. -/
def answer (limit : Nat) (source : Text) : Expand Answer := do
  let program ← read source
  let expanded ← expandProgram limit program
  let outcome ← evaluateProgram limit expanded
  return ⟨outcome, endsWithLet program⟩

/-- Run a computation on the machine of a session. -/
def perform {α : Type} (s : Session) (computation : Expand α) : Except Refusal α × Session :=
  match computation.run s.machine with
  | .ok a m => (.ok a, { s with machine := m })
  | .error refusal m => (.error refusal, { s with machine := m })

/-- Evaluate a unit of source. -/
def run (s : Session) (source : Text) : Except Refusal Answer × Session :=
  s.perform (answer s.limit source)

/-- Add a remark to the log. -/
def remark (s : Session) (remark : Remark) : Session :=
  { s with machine := s.machine.remark remark }

/-- Evaluate a unit of source, with a remark in the log. -/
def eval (s : Session) (source : Text) : Except Refusal Outcome × Session :=
  let (result, s) := (s.remark (.evaluating source.length)).run source
  (result.map Answer.outcome, s)

/-- A session that has evaluated a first unit, if there is one. -/
def startWith (limit : Int) (prelude : Text) : Except Refusal Session :=
  if prelude.isEmpty then .ok (start limit)
  else match (start limit).eval prelude with
    | (.ok _, s) => .ok s
    | (.error refusal, _) => .error refusal

/-- The binding of a name among the values. -/
def value? (s : Session) (name : Text) : Option Value := s.machine.store.lookup values name

/-- The binding of a name among the macros. -/
def macro? (s : Session) (name : Text) : Option Value := s.machine.store.lookup macros name

end Session

end MonkeyLang
