import MonkeyLang.Eval
import MonkeyLang.Proofs.Machine.Comparison

/-!
# Two evaluations side by side

Evaluations of one tree by two evaluators are compared. If the evaluators come to the same for all
trees inside it, the forms of evaluation over them come to the same for the tree; and where the
tree and the machine are proper, so is all that comes of them.

* `Eval.Terms` are the terms of such a comparison, `Eval.Terms.Agree` says that two evaluators
  agree on proper trees.
* The lemmas of this module say of each step on the machine, and of each builtin function, that it
  is alike on both sides.
-/

namespace MonkeyLang

open Grammar

/-- The terms on which evaluations are compared. -/
structure Eval.Terms where
  /-- How the outputs compare. -/
  Events : Array Event → Array Event → Prop
  emit : ∀ {a b : Array Event} (event : Event), Events a b → Events (a.push event) (b.push event)
  /-- What holds of all values that evaluations come to. -/
  Fine : Value → Prop
  /-- Which halts there may be. -/
  Halts : Halt → Prop
  overflow : Halts .overflow
  shown : ∀ {v : Value} {pieces : Pieces} {halt : Halt}, Fine v →
    v.inspect pieces = .error halt → Halts halt
  quoted : ∀ {v : Value} {halt : Halt}, Fine v →
    Quote.literal v = .error (.halted halt) → Halts halt
  digested : ∀ {v : Value} {halt : Halt}, Fine v → v.hashKey? = none →
    Operator.undigested v = .halted halt → Halts halt

theorem Eval.Terms.push_eq {a b : Array Event} (event : Event) (same : a = b) :
    a.push event = b.push event := by
  rw [same]

/-- The terms of a comparison in which nothing is asked of values and halts. -/
def Eval.Terms.ofEvents (Events : Array Event → Array Event → Prop)
    (emit : ∀ {a b : Array Event} (event : Event), Events a b →
      Events (a.push event) (b.push event)) : Eval.Terms where
  Events := Events
  emit := emit
  Fine _ := True
  Halts _ := True
  overflow := trivial
  shown _ _ := trivial
  quoted _ _ := trivial
  digested _ _ _ := trivial

/-- A proper value, or a fault that does not come from a hole in a tree. -/
def ProperResult (roles : Roles) : Except Fault Value → Prop
  | .ok v => v.Proper roles
  | .error fault => fault ≠ .missingNode

namespace Eval.Terms

/-- No evaluation meets a hole, and what is returned is a proper value. -/
def Exits (T : Eval.Terms) (roles : Roles) : Exit → Prop
  | .failed fault => fault ≠ .missingNode
  | .returned v => v.Proper roles ∧ T.Fine v
  | .halted halt => T.Halts halt

/-- The comparison of evaluations. -/
def comparison (T : Eval.Terms) : Comparison Exit :=
  ⟨T.Events, T.emit, T.Exits⟩

/-- The evaluations end in the same way. -/
abbrev Alike (T : Eval.Terms) {α : Type} (roles : Roles) (c c' : Eval α)
    (post : Roles → α → Prop) : Prop :=
  T.comparison.Alike roles c c' post

/-- The evaluators come to the same on proper trees. -/
def Agree (T : Eval.Terms) (run run' : Node → Eval Value) : Prop :=
  ∀ roles category node, node.Proper roles category →
    T.Alike roles (run node) (run' node) fun roles' v => v.Proper roles' ∧ T.Fine v

variable (T : Eval.Terms) {α : Type} {roles : Roles} {post : Roles → α → Prop}

/-! ## Steps on the machine -/

theorem fail_alike {fault : Fault} (h : fault ≠ .missingNode) :
    T.Alike roles (fail fault) (fail fault) post :=
  .throw h

theorem halt_alike {halt : Halt} (h : T.Halts halt) :
    T.Alike roles (throw (.halted halt)) (throw (.halted halt)) post :=
  .throw h

theorem ofExcept_alike {result : Except Fault Value} (h : ProperResult roles result) :
    T.Alike roles (ofExcept result) (ofExcept result) fun roles' v => v.Proper roles' := by
  cases result with
  | ok v => exact .pure h
  | error fault => exact T.fail_alike h

theorem newSerial_alike : T.Alike roles newSerial newSerial fun _ _ => True :=
  .silent (fun _ _ => rfl) (fun _ => rfl) fun _ proper =>
    ⟨roles, .refl, proper.of_eq rfl rfl, trivial⟩

theorem newPiece_alike {node : Node} {category : Category} (h : node.Proper roles category) :
    T.Alike roles (newPiece node) (newPiece node) fun roles' id => roles' id = some category :=
  .silent (fun _ _ => rfl) (fun _ => rfl) fun _ proper =>
    ⟨_, Roles.le_add proper.roles_nextId, proper.addPiece h, Roles.add_self _ _⟩

theorem setPiece_alike {id : PieceId} {node : Node} {category : Category}
    (role : roles id = some category) (h : node.Proper roles category) :
    T.Alike roles (setPiece id node) (setPiece id node) fun _ _ => True :=
  .silent (fun _ _ => rfl) (fun _ => rfl) fun _ proper =>
    ⟨roles, .refl, proper.setPiece role h, trivial⟩

theorem piece_alike {id : PieceId} {category : Category} (role : roles id = some category) :
    T.Alike roles (piece id) (piece id) fun roles' node => node.Proper roles' category :=
  .get_bind (fun _ _ => rfl) fun _ proper => .pure (proper.held role)

theorem bind_alike {scope : ScopeId} {name : Text} {v : Value} (h : v.Proper roles) :
    T.Alike roles (Eval.bind scope name v) (Eval.bind scope name v) fun _ _ => True :=
  .silent (fun _ _ => rfl) (fun _ => rfl) fun _ proper =>
    ⟨roles, .refl, proper.bind h, trivial⟩

theorem newScope_alike {outer : ScopeId} {bindings : Assoc Text Value}
    (h : ∀ b ∈ bindings, b.2.Proper roles) :
    T.Alike roles (newScope outer bindings) (newScope outer bindings) fun _ _ => True :=
  .silent (fun _ _ => rfl) (fun _ => rfl) fun _ proper =>
    ⟨roles, .refl, proper.enter h, trivial⟩

theorem emit_alike (event : Event) :
    T.Alike roles (modify (·.emit event)) (modify (·.emit event)) fun _ _ => True := by
  refine .modifyGet (fun m proper => ⟨roles, .refl, proper.of_eq rfl rfl, trivial⟩) ?_
  rintro m _ ⟨events, compared, rfl⟩
  exact ⟨rfl, events.push event, T.emit event compared, rfl⟩

theorem print_alike {v : Value} (fine : T.Fine v) :
    T.Alike roles (print v) (print v) fun _ _ => True := by
  have text : T.Alike roles (Eval.inspect v) (Eval.inspect v) fun _ _ => True := by
    refine .get_bind (fun _ _ => rfl) fun m _ => ?_
    cases shown : v.inspect m.pieces with
    | ok text => exact .pure trivial
    | error halt => exact T.halt_alike (T.shown fine shown)
  exact text.bind fun _ text _ _ => T.emit_alike (.printed text)

theorem name_alike (scope : ScopeId) (text : Text) :
    T.Alike roles (name scope text) (name scope text) fun roles' v => v.Proper roles' := by
  refine .get_bind (fun _ _ => rfl) fun m proper => ?_
  cases found : m.store.lookup scope text with
  | some v =>
      have holds := proper.lookup found
      cases v with
      | error fault => cases holds
      | _ => exact .pure holds
  | none =>
      cases Builtin.ofName? text with
      | some b => exact .pure .builtin
      | none => exact T.fail_alike nofun

/-! ## New values -/

theorem keep_alike {node : Node} {category : Category} (h : node.Proper roles category)
    (notParameter : category ≠ .parameter) :
    T.Alike roles (keep node) (keep node) fun roles' kept => kept.Proper roles' category := by
  unfold Eval.keep
  split
  · exact (T.newPiece_alike h).bind fun _ _ _ role => .pure (.piece role notParameter)
  · exact .pure h

theorem keepBody_alike {node : Node} {category : Category} (h : node.Proper roles category) :
    T.Alike roles (keepBody node) (keepBody node) fun roles' kept =>
      kept.Proper roles' category := by
  cases h with
  | fnLit parameters body =>
      refine (T.keep_alike body nofun).bind fun roles' kept more kept_proper => .pure ?_
      exact .fnLit (fun p mem => (parameters p mem).mono more) kept_proper
  | _ => exact .pure (by constructor <;> assumption)

theorem newQuote_alike {node : Node} (h : node.Proper roles .expression) :
    T.Alike roles (newQuote node) (newQuote node) fun roles' v => v.Proper roles' := by
  have kept := T.comparison.tracks.transformM (fun _ _ _ h => T.keepBody_alike h) h
  refine kept.bind fun roles₁ node₁ _ proper₁ => ?_
  refine (T.keep_alike proper₁ nofun).bind fun roles₂ node₂ _ proper₂ => ?_
  exact T.newSerial_alike.bind fun _ _ more _ => .pure (.quote (proper₂.mono more))

theorem newArray_alike {elements : List Value} (h : ∀ v ∈ elements, v.Proper roles) :
    T.Alike roles (newArray elements) (newArray elements) fun roles' v => v.Proper roles' :=
  T.newSerial_alike.bind fun _ _ more _ => .pure (.array fun v mem => (h v mem).mono more)

end Eval.Terms

/-! ## Operators -/

section Operators

variable {roles : Roles}

theorem Operator.unary_proper (op : Text) (operand : Value) :
    ProperResult roles (Operator.unary op operand) := by
  unfold Operator.unary
  split <;> first | exact .bool | exact .int | exact nofun

theorem Operator.integer_proper (op : Text) (l r : Int) :
    ProperResult roles (Operator.integer op l r) := by
  unfold Operator.integer
  split
  case h_4 => split <;> first | exact .int | exact nofun
  all_goals first | exact .int | exact .bool | exact nofun

theorem Operator.binary_proper (op : Text) (l r : Value) :
    ProperResult roles (Operator.binary op l r) := by
  unfold Operator.binary
  split
  · exact Operator.integer_proper op _ _
  · unfold Operator.string
    split <;> first | exact .str | exact nofun
  · unfold Operator.other
    split <;> first | exact .bool | skip
    split <;> exact nofun

theorem Operator.element_proper {elements : List Value} (h : ∀ v ∈ elements, v.Proper roles)
    (position : Value) : (Operator.element elements position).Proper roles := by
  unfold Operator.element
  split
  · split
    · exact .null
    · rw [List.getD_eq_getElem?_getD]
      next n _ =>
        cases found : elements[n.toNat]? with
        | none => exact .null
        | some v => exact h v (List.mem_of_getElem? found)
  · exact .null

theorem Operator.entry_proper {entries : Assoc HashKey (Value × Value)}
    (h : ∀ entry ∈ entries, entry.2.2.Proper roles) (key : HashKey) :
    (Operator.entry entries key).Proper roles := by
  unfold Operator.entry
  split
  · next found => exact h _ (Assoc.mem_of_get? found)
  · exact .null

end Operators

namespace Eval.Terms

variable (T : Eval.Terms) {roles : Roles}

theorem undigested_alike {α : Type} {post : Roles → α → Prop} {v : Value} (fine : T.Fine v)
    (keyless : v.hashKey? = none) :
    T.Alike roles (throw (Operator.undigested v)) (throw (Operator.undigested v)) post := by
  rcases Operator.undigested_cases v with halts | fails
  · have allowed := T.digested fine keyless halts
    rw [halts]
    exact T.halt_alike allowed
  · rw [fails]
    exact T.fail_alike nofun

theorem index_alike {container position : Value} (h : container.Proper roles)
    (fine : T.Fine position) :
    T.Alike roles (ofExit (Operator.index container position))
      (ofExit (Operator.index container position)) fun roles' v => v.Proper roles' := by
  unfold Operator.index
  cases h with
  | array elements => exact .pure (Operator.element_proper elements position)
  | hash _ values =>
      dsimp only
      cases keyed : position.hashKey? with
      | some key => exact .pure (Operator.entry_proper values key)
      | none => exact T.undigested_alike fine keyed
  | _ => exact T.fail_alike nofun

end Eval.Terms

/-! ## Builtin functions -/

namespace Eval.Terms

variable (T : Eval.Terms) {roles : Roles}

theorem singleArray_alike (b : Builtin) {arguments : List Value}
    (h : ∀ v ∈ arguments, v.Proper roles) :
    T.Alike roles (b.singleArray arguments) (b.singleArray arguments) fun roles' elements =>
      ∀ v ∈ elements, v.Proper roles' := by
  unfold Builtin.singleArray
  match arguments with
  | [v] =>
      cases h v (.head _) with
      | array elements => exact .pure elements
      | _ => exact T.fail_alike nofun
  | [] | _ :: _ :: _ => exact T.fail_alike nofun

theorem prints_alike {arguments : List Value} (h : ∀ v ∈ arguments, T.Fine v) :
    T.Alike roles (arguments.forM print) (arguments.forM print) fun _ _ => True := by
  induction arguments generalizing roles with
  | nil => exact .pure trivial
  | cons v others ih =>
      exact (T.print_alike (h v (.head _))).bind fun _ _ _ _ => ih fun w mem => h w (.tail _ mem)

/-- Builtin functions make proper values of proper ones. -/
theorem builtin_alike (b : Builtin) {arguments : List Value}
    (proper : ∀ v ∈ arguments, v.Proper roles) (fine : ∀ v ∈ arguments, T.Fine v) :
    T.Alike roles (b.call arguments) (b.call arguments) fun roles' v => v.Proper roles' := by
  unfold Builtin.call
  cases b with
  | len =>
      match arguments with
      | [v] =>
          cases v with
          | str => exact .pure .int
          | array => exact .pure .int
          | _ => exact T.fail_alike nofun
      | [] | _ :: _ :: _ => exact T.fail_alike nofun
  | first =>
      refine (T.singleArray_alike .first proper).bind fun _ elements _ h => .pure ?_
      cases elements with
      | nil => exact .null
      | cons v _ => exact h v (.head _)
  | last =>
      refine (T.singleArray_alike .last proper).bind fun _ elements _ h => .pure ?_
      rw [List.getLastD_eq_getLast?]
      cases last : elements.getLast? with
      | none => exact .null
      | some v => exact h v (List.mem_of_getLast? last)
  | rest =>
      refine (T.singleArray_alike .rest proper).bind fun _ elements _ h => ?_
      cases elements with
      | nil => exact .pure .null
      | cons _ others => exact T.newArray_alike fun v mem => h v (.tail _ mem)
  | push =>
      match arguments with
      | [v, element] =>
          have last := proper element (.tail _ (.head _))
          cases proper v (.head _) with
          | array elements =>
              refine T.newArray_alike fun w mem => ?_
              rcases List.mem_append.1 mem with old | new
              · exact elements w old
              · rw [List.mem_singleton] at new
                exact new ▸ last
          | _ => exact T.fail_alike nofun
      | [] | [_] | _ :: _ :: _ :: _ => exact T.fail_alike nofun
  | puts => exact (T.prints_alike fine).bind fun _ _ _ _ => .pure .null

end Eval.Terms

end MonkeyLang
