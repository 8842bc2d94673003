import MonkeyLang.Store
import MonkeyLang.Value.Inspect

/-!
# The texts of scopes

A scope is shown as its bindings, with a mark behind them if it stands inside another scope, or
together with all the scopes around it. There is no text if a value has none.
-/

namespace MonkeyLang

namespace Scope

/-- The bindings of a scope. -/
def bindingsText (pieces : Pieces) (scope : Scope) : Except Halt Text := do
  let texts ← scope.bindings.mapM fun (name, value) => do
    return name ++ ": " ++ (← value.inspect pieces)
  return "\x7b" ++ Node.commaSep texts ++ "\x7d"

/-- The bindings of a scope, and whether there is a scope around it. -/
def text (pieces : Pieces) (scope : Scope) : Except Halt Text := do
  return (← scope.bindingsText pieces) ++ (if scope.outer.isSome then " -> ..." else "")

end Scope

/-- The bindings of a scope and of all scopes around it, innermost first. -/
def Store.chainText (pieces : Pieces) (s : Store) (id : ScopeId) : Except Halt Text := do
  let texts ← (s.chain id).mapM fun id => (s.scope id).bindingsText pieces
  return "<Environment chain: " ++ Text.intercalate " -> " texts ++ ">"

end MonkeyLang
