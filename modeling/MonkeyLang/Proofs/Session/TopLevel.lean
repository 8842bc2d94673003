import MonkeyLang.Proofs.Evaluation.Hashes
import MonkeyLang.Proofs.Session.Values

/-!
# Names at the top level

At the top level a session makes remarks, expands programs and evaluates trees in the outermost scope of
values. Whatever it does there, a name that the scope binds stays bound, and what is bound is no fault.
So from its first let statement on the name comes to what the program has bound to it, also where there
is a builtin function of the same name.

* `Session.Goes` is one step at the top level, `Session.Further` any number of them.
  `Session.Reached.further` says that sessions are reached by nothing else.
* `Session.Further.divided` and `Session.Further.grows` are what the steps keep.
* `Session.evaluate_name_of_bound` and `Session.evaluate_letStmt` say what comes of a name and of a let
  statement.
-/

namespace MonkeyLang

open Session (values macros machine₀)

namespace Session

variable {m m' : Machine}

/-! ## Steps -/

/-- One step of a session at its top level, whatever comes of it. -/
inductive Goes : Machine → Machine → Prop
  | remark {m : Machine} (r : Remark) : Goes m (m.remark r)
  | expand {m : Machine} (limit : Nat) (program : Node) :
    Goes m (finalState ((expandProgram limit program).run m))
  | evaluate {m : Machine} (depth : Nat) (node : Node) :
    Goes m (finalState ((evaluate depth node values).run m))

/-- Any number of steps. -/
abbrev Further : Machine → Machine → Prop := Relation.ReflTransGen Goes

/-- A unit takes steps only, also one that is refused or halts the machine. -/
theorem further_answer (start : Machine) (limit : Nat) (source : Text) :
    Preserves (Further start) (answer limit source) := by
  refine Preserves.bind ?_ fun program =>
    Preserves.bind (fun m steps => steps.tail (.expand limit program)) fun expanded =>
      Preserves.bind ?_ fun outcome => Preserves.pure _
  · unfold read
    dsimp only
    split
    · exact Preserves.pure _
    · exact Preserves.bind (Preserves.modifyGet fun m steps => steps.tail (.remark _)) fun _ =>
        Preserves.throw _
  · refine Preserves.tryCatch
      (Preserves.outcome fun m steps => steps.tail (.evaluate limit expanded)) fun refusal => ?_
    split
    · exact Preserves.bind (Preserves.modifyGet fun m steps => steps.tail (.remark _)) fun _ =>
        Preserves.pure _
    · exact Preserves.throw _

/-- A session is reached by steps at the top level. -/
theorem Reached.further {s : Session} (reached : s.Reached) : Further machine₀ s.machine :=
  reached.invariant (Further machine₀) .refl (fun _ r steps => steps.tail (.remark r))
    (further_answer machine₀)

theorem Goes.divided (step : Goes m m') (h : m.store.Divided) : m'.store.Divided := by
  cases step with
  | remark r => exact h
  | expand limit program =>
      exact preserves_store_expandProgram (fun _ name _ _ _ h => h.bindMacro name ⟨_, _, _, rfl⟩)
        (fun _ _ extends_ h => h.extend extends_) limit program m h
  | evaluate depth node => exact h.evaluate depth node

theorem Goes.grows (step : Goes m m') : m.store.Grows m'.store := by
  cases step with
  | remark r => exact .refl
  | expand limit program =>
      exact preserves_store_expandProgram (fun s name _ _ _ h => h.trans (.bind s macros name _))
        (fun _ _ extends_ h => h.trans (.of_extends extends_)) limit program m .refl
  | evaluate depth node => exact evaluate_grows depth node values m

/-- Values and macros stay apart. -/
theorem Further.divided (steps : Further m m') (h : m.store.Divided) : m'.store.Divided := by
  induction steps with
  | refl => exact h
  | tail _ step ih => exact step.divided ih

/-- No name is lost. -/
theorem Further.grows (steps : Further m m') : m.store.Grows m'.store := by
  induction steps with
  | refl => exact .refl
  | tail _ step ih => exact ih.trans step.grows

/-! ## Names -/

/-- What the outermost scope of values binds to a name. -/
def bound? (m : Machine) (name : Text) : Option Value := (m.store.scope values).bindings.get? name

theorem bound?_bind (inside : values < m.store.nextId) (name : Text) (v : Value) :
    bound? (m.bind values name v) name = some v := by
  change ((m.store.bind values name v).scope values).bindings.get? name = some v
  rw [Store.scope_bind, if_pos ⟨rfl, inside⟩, Assoc.get?_insert, if_pos rfl]

/-- A name that is bound stays bound. -/
theorem Further.exists_bound (steps : Further m m') (inside : values < m.store.nextId) {name : Text}
    {v : Value} (bound : bound? m name = some v) : ∃ w, bound? m' name = some w := by
  rw [← Option.ne_none_iff_exists', bound?, Ne, Assoc.get?_eq_none_iff, not_not]
  refine steps.grows.names values inside name ?_
  exact List.mem_map_of_mem (Assoc.mem_of_get? bound)

/-- A name comes to what is bound to it. -/
theorem evaluate_name_of_bound (divided : m.store.Divided) {name : Text} {v : Value}
    (bound : bound? m name = some v) (t : Option Token) (depth : Nat) :
    (evaluate (depth + 1) (.ident t name) values).run m = .ok v m := by
  have found : m.store.lookup values name = some v := by
    rw [bound?] at bound
    rw [Store.lookup, bound]
  have ordinary := divided.onlyOrdinary v (Store.reaches_of_lookup found)
  have read : (MonadState.get : Eval Machine).run m = .ok m m := rfl
  rw [evaluate, Eval.form, Eval.name, run_bind_of_ok read, found]
  cases v with
  | error fault => cases ordinary
  | _ => rfl

/-- A let statement binds the value that its tree comes to. -/
theorem evaluate_letStmt {depth : Nat} {tree : Node} {v : Value}
    (ran : (evaluate depth tree values).run m = .ok v m') (t : Option Token) (name : Name) :
    (evaluate (depth + 1) (.letStmt t name tree) values).run m =
      .ok .null (m'.bind values name.text v) := by
  rw [evaluate, Eval.form, run_bind_of_ok ran]
  rfl

/-- A let statement is a step to where the name is bound. -/
theorem further_letStmt {depth : Nat} {tree : Node} {v : Value}
    (ran : (evaluate depth tree values).run m = .ok v m') (name : Name) :
    Further m (m'.bind values name.text v) := by
  have step := Goes.evaluate (m := m) (depth + 1) (.letStmt none name tree)
  rw [evaluate_letStmt ran] at step
  exact .single step

end Session

end MonkeyLang
