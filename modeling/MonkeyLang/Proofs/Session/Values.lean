import MonkeyLang.Proofs.Evaluation.Expansion
import MonkeyLang.Proofs.Session.Reached
import MonkeyLang.Proofs.Value.Ordinary

/-!
# The values of a session

A session keeps values and macros apart. The scopes that are reached from the outermost scope of
values form a closed set without the scope of macros in it, so that a macro never becomes a value
of a program, and the scope of macros binds nothing but macros.

* `Store.Divided` is this division of a store.
* `Session.divided` says that every unit keeps it, whatever becomes of the unit.
* `session_holds_ordinary_values` is the result for all sessions, with what it says of every
  evaluation.
-/

namespace MonkeyLang

open Session (values macros machine₀)

/-- The value is a macro that was defined at the top level of a unit. -/
def Value.IsDefinedMacro (v : Value) : Prop :=
  ∃ serial parameters body, v = .macroValue serial parameters body macros

/-- Values and macros are apart: there is a closed set of scopes with the outermost scope of values
and without the scope of macros, and that scope binds macros only. -/
structure Store.Divided (s : Store) : Prop where
  roots : macros < s.nextId
  closed : ∃ known : ScopeId → Prop, known values ∧ ¬ known macros ∧
    (∀ id, known id → id < s.nextId) ∧ s.Closed known
  bound : ∀ name v, (name, v) ∈ (s.scope macros).bindings → v.IsDefinedMacro

namespace Store.Divided

variable {s s' : Store}

theorem onlyOrdinary (h : s.Divided) : s.OnlyOrdinary (.scope values) := by
  obtain ⟨known, root, -, -, closed⟩ := h.closed
  exact closed.onlyOrdinary root

/-- New scopes beside the old ones do not matter. -/
theorem extend (h : s.Divided) (extends_ : s.Extends s') : s'.Divided := by
  obtain ⟨known, root, apart, inside, closed⟩ := h.closed
  refine ⟨Nat.lt_of_lt_of_le h.roots extends_.nextId_le, ⟨known, root, apart, ?_, ?_, ?_⟩, ?_⟩
  · exact fun id hid => Nat.lt_of_lt_of_le (inside id hid) extends_.nextId_le
  · intro id name v hid bound
    rw [extends_.scope_eq id (inside id hid) not_false] at bound
    exact closed.binding hid bound
  · intro id around hid outer
    rw [extends_.scope_eq id (inside id hid) not_false] at outer
    exact closed.outer hid outer
  · intro name v bound
    rw [extends_.scope_eq macros h.roots not_false] at bound
    exact h.bound name v bound

/-- A macro is bound in a scope that is not among those of values. -/
theorem bindMacro (h : s.Divided) (name : Text) {v : Value} (isMacro : v.IsDefinedMacro) :
    (s.bind macros name v).Divided := by
  obtain ⟨known, root, apart, inside, closed⟩ := h.closed
  have same {id : ScopeId} (hid : known id) : (s.bind macros name v).scope id = s.scope id := by
    rw [Store.scope_bind, if_neg]
    intro parts
    obtain ⟨rfl, -⟩ := parts
    exact apart hid
  refine ⟨by rw [Store.nextId_bind]; exact h.roots, ⟨known, root, apart, ?_, ?_, ?_⟩, ?_⟩
  · rw [Store.nextId_bind]
    exact inside
  · intro id other w hid bound
    rw [same hid] at bound
    exact closed.binding hid bound
  · intro id around hid outer
    rw [same hid] at outer
    exact closed.outer hid outer
  · intro other w bound
    rw [Store.scope_bind, if_pos ⟨rfl, h.roots⟩] at bound
    rcases Assoc.mem_insert bound with old | new
    · exact h.bound other w old
    · cases new
      exact isMacro

/-- An evaluation in the outermost scope of values adds the scopes it opens to those of values. -/
theorem evaluate {m : Machine} (h : m.store.Divided) (depth : Nat) (node : Node) :
    (finalState ((MonkeyLang.evaluate depth node values).run m)).store.Divided := by
  obtain ⟨known, root, apart, inside, closed⟩ := h.closed
  have frame := evaluate_frame depth node values m
  have macros_eq := frame.scope_eq macros h.roots (by decide)
  -- Scopes opened from here on may be reached as well, but the scope of macros is older than they.
  let I := Eval.Invariant.ordinary known m.store.nextId
  have sound : m.store.Sound known m.store.nextId := by
    refine ⟨Nat.le_refl _, ?_⟩
    rw [Allowed.at_start]
    exact closed
  have kept := (I.evaluate depth node values m ⟨sound, .inl root⟩).moves
  generalize finalState ((MonkeyLang.evaluate depth node values).run m) = m' at frame macros_eq kept
  have grown : m.store.nextId ≤ m'.store.nextId := frame.nextId_le
  refine ⟨Nat.lt_of_lt_of_le h.roots grown,
    ⟨Allowed known m.store.nextId m'.store.nextId, .inl root, ?_, ?_, (kept.2 sound).closed⟩, ?_⟩
  · intro either
    rcases either with old | ⟨new, -⟩
    · exact apart old
    · exact Nat.not_lt_of_le new h.roots
  · intro id either
    rcases either with old | ⟨-, new⟩
    · exact Nat.lt_of_lt_of_le (inside id old) grown
    · exact new
  · intro name v bound
    rw [macros_eq] at bound
    exact h.bound name v bound

end Store.Divided

/-! ## Units -/

namespace Session

theorem divided_machine₀ : machine₀.store.Divided where
  roots := by decide
  closed := by
    refine ⟨(· = values), rfl, by decide, ?_, ?_, ?_⟩
    · intro id same
      subst same
      decide
    · intro id name v same bound
      subst same
      cases bound
    · intro id around same outer
      subst same
      cases outer
  bound name v bound := nomatch bound

/-- Every unit keeps values and macros apart, also one that is refused or halts the machine. -/
theorem divided (limit : Nat) (source : Text) :
    Preserves (fun m => m.store.Divided) (answer limit source) :=
  preserves_store (fun _ name _ _ _ h => h.bindMacro name ⟨_, _, _, rfl⟩)
    (fun _ _ extends_ h => h.extend extends_) (fun depth node _ h => h.evaluate depth node)
    limit source

end Session

/-! ## Results -/

theorem catchReturn_ne_returned (c : Eval Value) (m : Machine) (v : Value) :
    ((Eval.catchReturn c).outcome m).1 ≠ .ok (.returned v) := by
  rw [outcome_eq]
  unfold Eval.catchReturn
  rw [run_tryCatch]
  cases c.run m with
  | ok w m' => exact nofun
  | error exit m' => cases exit <;> exact nofun

/-- In every session, none but ordinary values are to be reached from the outermost scope of
values, and the scope of macros binds none but macros of its own. Where none but ordinary values
are to be reached from a scope, this stays so in every evaluation there, and what it comes to is an
ordinary value, a fault, or the return of an ordinary value. Neither a program nor the call of a
function comes to a return. -/
theorem session_holds_ordinary_values :
    (∀ s : Session, s.Reached →
      s.machine.store.OnlyOrdinary (.scope values) ∧
        ∀ name v, (name, v) ∈ (s.machine.store.scope macros).bindings → v.IsDefinedMacro) ∧
    (∀ (depth : Nat) (node : Node) (e : ScopeId) (m : Machine),
      m.store.OnlyOrdinary (.scope e) →
        ((evaluate depth node e).outcome m).2.store.OnlyOrdinary (.scope e) ∧
          ∀ outcome, ((evaluate depth node e).outcome m).1 = .ok outcome →
            outcome.OnlyOrdinary ((evaluate depth node e).outcome m).2.store) ∧
    (∀ (depth : Nat) (statements : List Node) (e : ScopeId) (m : Machine) (v : Value),
      ((evaluate depth (.program statements) e).outcome m).1 ≠ .ok (.returned v)) ∧
    ∀ (depth serial : Nat) (parameters : List Node) (body : Node) (scope : ScopeId)
      (arguments : List Value) (m : Machine) (v : Value),
      ((Eval.apply (evaluate depth) (.function serial parameters body scope) arguments).outcome
        m).1 ≠ .ok (.returned v) := by
  refine ⟨fun s reached => ?_, evaluate_onlyOrdinary, ?_, ?_⟩
  · have apart : s.machine.store.Divided :=
      reached.invariant (fun m => m.store.Divided) Session.divided_machine₀
        (fun _ _ h => h) Session.divided
    exact ⟨apart.onlyOrdinary, apart.bound⟩
  · intro depth statements e m v
    cases depth with
    | zero => exact nofun
    | succ depth => exact catchReturn_ne_returned _ m v
  · intro depth serial parameters body scope arguments m v
    unfold Eval.apply
    dsimp only
    split
    · exact nofun
    · exact catchReturn_ne_returned _ (m.enter (some scope) (Eval.arguments parameters arguments)) v

/-- A session with a macro, a unit that is refused and a closure in an array; and the evaluation of
a definition that binds an array in the first machine. -/
theorem session_with_closure_holds_ordinary_values :
    let units := (((Session.start 0).eval "let m = macro(x) \x7b quote(unquote(x)) \x7d;").2.run
      "let f = fn(x").2
    let s := (units.run "let g = [fn(x) \x7b m(x) \x7d, m(1)];").2
    let definition := Node.letStmt none ⟨none, "a"⟩ (.array none [.int none 1])
    s.Reached ∧ s.machine.store.OnlyOrdinary (.scope values) ∧
      machine₀.store.OnlyOrdinary (.scope values) ∧
        ((evaluate 5 definition values).outcome machine₀).2.store.OnlyOrdinary (.scope values) := by
  intro units s definition
  have reached : s.Reached := .run _ (.run _ (.eval _ (.start 0)))
  have ordinary := Session.divided_machine₀.onlyOrdinary
  exact ⟨reached, (session_holds_ordinary_values.1 s reached).1, ordinary,
    (session_holds_ordinary_values.2.1 5 definition values machine₀ ordinary).1⟩

end MonkeyLang
