import MonkeyLang.Proofs.Session.Renumbered

/-!
# What is seen of a session

Users see texts: the report on a unit, the lines that it prints, and the texts of what is bound.
They do not see numbers, and so they see the same of sessions that are like each other.

* `Session.report` and `Session.output` are what is seen of a unit.
* `Session.listing` and `Session.shown?` are what is seen of the bindings of a scope.
-/

namespace MonkeyLang

/-- The report on a unit of source. -/
inductive Report where
  /-- The messages of the mistakes in its text. -/
  | mistakes (messages : List Text)
  /-- The message on a call of a macro that cannot be replaced. -/
  | expansion (message : Text)
  | halted (halt : Halt)
  /-- The kind and the text of what it comes to. -/
  | outcome (kind : Kind) (text : Except Halt Text)

namespace Session

/-- The report on a unit in a session. -/
def report (s : Session) (source : Text) : Report :=
  match s.eval source with
  | (.ok outcome, s) => .outcome outcome.kind (outcome.inspect s.machine.pieces)
  | (.error (.mistakes diagnostics), _) => .mistakes (diagnostics.map Diagnostic.message)
  | (.error (.expansion fault), _) => .expansion fault.message
  | (.error (.halted halt), _) => .halted halt

/-- The lines that a unit prints in a session. -/
def output (s : Session) (source : Text) : List Text :=
  (s.eval source).2.machine.printed.drop s.machine.printed.length

/-- The names that a scope binds, in their order, and the texts of their values. -/
def listing (s : Session) (scope : ScopeId) : List (Text × Except Halt Text) :=
  (s.machine.store.scope scope).bindings.map fun (name, value) =>
    (name, value.inspect s.machine.pieces)

/-- The text of the value that a name has in a scope, if it has one. -/
def shown? (s : Session) (scope : ScopeId) (name : Text) : Option (Except Halt Text) :=
  (s.machine.store.lookup scope name).map fun value => value.inspect s.machine.pieces

end Session

/-! ## Sessions that are like each other -/

namespace Outcome.Like

variable {T : Renumbering} {b : Nat} {outcome outcome' : Outcome}

theorem kind_eq (h : outcome.Like T b outcome') : outcome.kind = outcome'.kind := by
  cases h with
  | value like => exact like.kind_eq
  | failed | returned => rfl

theorem inspect_eq {p p' : Pieces} (pieces : p.Like T.pieces T.Free p')
    (h : outcome.Like T p.nextId outcome') : outcome.inspect p = outcome'.inspect p' := by
  cases h with
  | failed => rfl
  | value like | returned like => exact like.inspect_eq pieces

end Outcome.Like

namespace Session

section

variable {T : Renumbering} {s s' : Session}

theorem Like.shown?_eq (h : s.Like T s') {name : Text} (free : T.Free name) (scope : ScopeId) :
    s.shown? scope name = s'.shown? (T.scope scope) name := by
  have found := h.machine.store.lookup free (h.met scope)
  unfold shown?
  generalize s.machine.store.lookup scope name = v?,
    s'.machine.store.lookup (T.scope scope) name = v'? at found ⊢
  cases found with
  | none => rfl
  | some like => exact congrArg some (like.inspect_eq h.machine.pieces)

/-- Where nothing else is bound, all that a scope binds is seen alike. -/
theorem Like.listing_eq (h : s.Like T s') {scope : ScopeId} (none : T.extra scope = []) :
    s.listing scope = s'.listing (T.scope scope) := by
  obtain ⟨own, same, like⟩ := (h.machine.store.scope scope (h.met scope)).bindings
  unfold listing
  rw [same, none, List.nil_append]
  clear same
  generalize (s.machine.store.scope scope).bindings = bindings at like ⊢
  induction like with
  | nil => rfl
  | @cons entry entry' _ _ both _ ih =>
      obtain ⟨name, v⟩ := entry
      obtain ⟨name', v'⟩ := entry'
      obtain ⟨rfl, like⟩ := both
      have text := like.inspect_eq h.machine.pieces
      rw [List.map_cons, List.map_cons, ih]
      dsimp only at text ⊢
      rw [text]

section

variable (h : s.Like T s') (sharedValues : T.scope values = values)
  (sharedMacros : T.scope macros = macros) {text text' : Text} (same : T.Sources text text')

include h sharedValues sharedMacros same

theorem Like.report_eq : s.report text = s'.report text' := by
  obtain ⟨after, results⟩ := h.eval sharedValues sharedMacros same
  have pieces := after.machine.pieces
  unfold report
  generalize s.eval text = r, s'.eval text' = r' at results pieces ⊢
  obtain ⟨result, after⟩ := r
  obtain ⟨result', after'⟩ := r'
  cases results with
  | ok like =>
      dsimp only
      rw [like.kind_eq, like.inspect_eq pieces]
  | error like =>
      cases like with
      | expansion => rfl
      | halted => rfl
      | mistakes same => exact congrArg Report.mistakes (messages_eq same)

theorem Like.output_eq : s.output text = s'.output text' :=
  h.machine.printed_drop_eq (h.eval sharedValues sharedMacros same).1.machine

end

end

end Session

end MonkeyLang
