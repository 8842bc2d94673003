import MonkeyLang.Eval
import MonkeyLang.Parser.Cursor

/-!
# Macros

A macro is defined by a let statement at the top level of a program, and is gone from the program
before it is evaluated. A call of a macro is replaced by the piece of program that the macro's
body yields when its parameters are bound to the arguments, quoted as they stand.

* `Machine.defineMacros` takes the definitions out of a program.
* `expand` replaces the calls, inner ones before outer ones.
-/

namespace MonkeyLang

/-- Why a call of a macro cannot be replaced. -/
inductive ExpansionFault where
  | arity (name : Text) (want got : Nat)
  | failed (name : Text) (fault : Fault)
  /-- The body yields something other than a quotation. -/
  | notQuoted (name : Text) (kind : Kind)
deriving DecidableEq, Repr

/-- The wording of a failed expansion. -/
def ExpansionFault.message : ExpansionFault → Text
  | arity name want got => "macro " ++ name ++ s!" expects {want} argument(s), got {got}"
  | failed name fault => "macro " ++ name ++ " failed: " ++ fault.message
  | notQuoted name kind => "macro " ++ name ++ s!" must return a quoted AST node, got {kind.name}"

/-- Why a unit of source is not evaluated. -/
inductive Refusal where
  | mistakes (diagnostics : List Diagnostic)
  | expansion (fault : ExpansionFault)
  | halted (halt : Halt)

/-! ## Definitions -/

/-- The definition of a macro. -/
structure MacroDefinition where
  name : Text
  parameters : List Node
  body : Node

/-- The definition that a statement is, if it is one. -/
def MacroDefinition.ofStatement? : Node → Option MacroDefinition
  | .letStmt _ name (.macroLit _ parameters body) => some ⟨name.text, parameters, body⟩
  | _ => none

/-- Bind a macro in a scope. The scope is the one around its parameters, too. -/
def Machine.defineMacro (m : Machine) (scope : ScopeId) (d : MacroDefinition) : Machine :=
  let value := .macroValue m.nextSerial d.parameters d.body scope
  let m := { m with nextSerial := m.nextSerial + 1 }
  (m.bind scope d.name value).remark (.macroDefined d.name (d.parameters.map Node.boundName))

/-- The places of the definitions among some statements. -/
def MacroDefinition.places (statements : List Node) : List Nat :=
  (statements.zipIdx.filter fun p => (ofStatement? p.1).isSome).map Prod.snd

/-- Bind the macros that a program defines, and take their definitions out of it. The last one goes
first, so that the places of the others stay what they are. -/
def Machine.defineMacros (m : Machine) (scope : ScopeId) (program : Node) : Node × Machine :=
  let statements := program.statements
  let places := MacroDefinition.places statements
  let definitions := places.filterMap fun i => statements[i]?.bind MacroDefinition.ofStatement?
  (.program (places.reverse.foldl List.eraseIdx statements),
    definitions.foldl (·.defineMacro scope ·) m)

namespace MacroDefinition

theorem places_cons (s : Node) (ss : List Node) :
    places (s :: ss) =
      if (ofStatement? s).isSome then 0 :: (places ss).map (· + 1) else (places ss).map (· + 1) := by
  have later : ((ss.zipIdx 1).filter fun p => (ofStatement? p.1).isSome).map Prod.snd =
      (places ss).map (· + 1) := by
    rw [List.zipIdx_succ, List.filter_map, List.map_map]
    unfold places
    rw [List.map_map]
    rfl
  unfold places at later ⊢
  rw [List.zipIdx_cons, List.filter_cons]
  split
  · rw [List.map_cons, later]
  · rw [later]

/-- Removals behind the first statement leave it. -/
theorem foldr_eraseIdx_succ (s : Node) (ss : List Node) (places : List Nat) :
    (places.map (· + 1)).foldr (fun i l => l.eraseIdx i) (s :: ss) =
      s :: places.foldr (fun i l => l.eraseIdx i) ss := by
  induction places with
  | nil => rfl
  | cons i places ih =>
    rw [List.map_cons, List.foldr_cons, ih, List.foldr_cons]
    rfl

/-- To remove the definitions by their places, the last one first, is to leave all that are none. -/
theorem eraseIdx_places (statements : List Node) :
    (places statements).reverse.foldl List.eraseIdx statements =
      statements.filter fun s => (ofStatement? s).isNone := by
  rw [List.foldl_reverse]
  induction statements with
  | nil => rfl
  | cons s ss ih =>
    rw [places_cons]
    cases definition : ofStatement? s with
    | none =>
      rw [if_neg (by simp), foldr_eraseIdx_succ, ih, List.filter_cons_of_pos (by simp [definition])]
    | some d =>
      rw [if_pos (by simp), List.foldr_cons, foldr_eraseIdx_succ, ih,
        List.filter_cons_of_neg (by simp [definition])]
      rfl

/-- What stands at the places are the definitions, in their order. -/
theorem filterMap_places (statements : List Node) :
    ((places statements).filterMap fun i => statements[i]?.bind ofStatement?) =
      statements.filterMap ofStatement? := by
  induction statements with
  | nil => rfl
  | cons s ss ih =>
    have later : ((places ss).map (· + 1)).filterMap (fun i => (s :: ss)[i]?.bind ofStatement?) =
        ss.filterMap ofStatement? := by
      rw [List.filterMap_map, ← ih]
      rfl
    rw [places_cons]
    cases definition : ofStatement? s with
    | none => rw [if_neg (by simp), later, List.filterMap_cons_none definition]
    | some d =>
      rw [if_pos (by simp), List.filterMap_cons_some (by simpa using definition), later,
        List.filterMap_cons_some definition]

end MacroDefinition

/-- The definitions leave the program, and are bound in their order. -/
theorem Machine.defineMacros_eq (m : Machine) (scope : ScopeId) (program : Node) :
    m.defineMacros scope program =
      (.program (program.statements.filter fun s => (MacroDefinition.ofStatement? s).isNone),
        (program.statements.filterMap MacroDefinition.ofStatement?).foldl (·.defineMacro scope ·)
          m) := by
  unfold defineMacros
  dsimp only
  rw [MacroDefinition.eraseIdx_places, MacroDefinition.filterMap_places]

/-! ## Calls -/

/-- A computation on the machine that may refuse the unit it works on. -/
abbrev Expand := EStateM Refusal Machine

/-- The outcome of an evaluation. -/
def Expand.outcome (computation : Eval Value) : Expand Outcome := fun m =>
  match computation.outcome m with
  | (.ok outcome, m) => .ok outcome m
  | (.error halt, m) => .error (.halted halt) m

namespace Expansion

/-- Refuse the unit. -/
def fail {α : Type} (fault : ExpansionFault) : Expand α := throw (.expansion fault)

/-- The value of the body of a macro, its parameters bound to quoted arguments. -/
def body (depth : Nat) (parameters : List Node) (body : Node) (scope : ScopeId)
    (arguments : List Node) : Eval Value := do
  let values ← arguments.mapM Eval.newQuote
  let inner ← Eval.newScope scope (Eval.arguments parameters values)
  evaluate depth body inner

/-- The node that a macro puts in the place of a call. -/
def replacement (depth : Nat) (name : Text) (parameters : List Node) (body : Node)
    (scope : ScopeId) (arguments : List Node) : Expand Node := do
  if parameters.length ≠ arguments.length then
    fail (.arity name parameters.length arguments.length)
  else
    match ← Expand.outcome (Expansion.body depth parameters body scope arguments) with
    | .failed fault => fail (.failed name fault)
    | .value v | .returned v =>
      match v with
      | .quote _ node => return node
      | .error fault => fail (.failed name fault)
      | v => fail (.notQuoted name v.kind)

/-- Replace a call of a macro that is bound in a scope; any other node stays. -/
def step (depth : Nat) (scope : ScopeId) (node : Node) : Expand Node := do
  match node with
  | .call t (.ident u name) arguments =>
    match (← get).store.lookup scope name with
    | some (.macroValue _ parameters body inner) =>
      let result ← replacement depth name parameters body inner arguments
      modify fun m => m.remark (.expanded (m.pieces.shown (.call t (.ident u name) arguments))
        (m.pieces.shown result))
      return result
    | _ => return .call t (.ident u name) arguments
  | node => return node

end Expansion

/-- Replace all calls of macros that are bound in a scope. -/
def expand (depth : Nat) (scope : ScopeId) (node : Node) : Expand Node :=
  node.transformM (Expansion.step depth scope)

end MonkeyLang
