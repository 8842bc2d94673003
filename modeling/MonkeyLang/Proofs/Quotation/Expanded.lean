import MonkeyLang.Proofs.Evaluation.Expansion
import MonkeyLang.Proofs.Machine.Motion
import MonkeyLang.Proofs.Quotation.Enclosed

/-!
# Pieces that an expansion leaves alone

In the scope of macros there is no quotation. So the quotations that the body of a macro comes to are
made of the arguments of the call, and of what has been put into the program before; no piece that
there was before the expansion is among them. All these pieces stay as they are.

* `Store.BindsMacros` says that a scope binds macros as they stand in programs.
* `expand_extends_pieces` is the result for the expansion of a program.
-/

namespace MonkeyLang

/-- The scope is by itself and binds macros of its own, in whose bodies there are no pieces. -/
structure Store.BindsMacros (s : Store) (e : ScopeId) : Prop where
  inside : e < s.nextId
  outermost : (s.scope e).outer = none
  bound : ∀ name v, (name, v) ∈ (s.scope e).bindings →
    ∃ serial parameters body, v = .macroValue serial parameters body e ∧ ∀ id, ¬ body.Refers id

namespace Store.BindsMacros

variable {s s' : Store} {e : ScopeId}

theorem lookup (h : s.BindsMacros e) {name : Text} {v : Value}
    (found : s.lookup e name = some v) :
    ∃ serial parameters body, v = .macroValue serial parameters body e ∧ ∀ id, ¬ body.Refers id := by
  rw [Store.lookup] at found
  split at found
  · next bound =>
      cases found
      exact h.bound name v (Assoc.mem_of_get? bound)
  · split at found
    · next around =>
        cases h.outermost.symm.trans (outer_of_outer? around)
    · cases found

theorem of_same (h : s.BindsMacros e) (more : s.nextId ≤ s'.nextId)
    (same : s'.scope e = s.scope e) : s'.BindsMacros e := by
  refine ⟨Nat.lt_of_lt_of_le h.inside more, ?_, fun name v bound => ?_⟩
  · rw [same]
    exact h.outermost
  · rw [same] at bound
    exact h.bound name v bound

theorem extend (h : s.BindsMacros e) (more : s.Extends s') : s'.BindsMacros e :=
  h.of_same more.nextId_le (more.scope_eq e h.inside not_false)

/-- One more macro is bound. -/
theorem bind (h : s.BindsMacros e) (name : Text) {serial : Nat} {parameters : List Node}
    {body : Node} (free : ∀ id, ¬ body.Refers id) :
    (s.bind e name (.macroValue serial parameters body e)).BindsMacros e := by
  refine ⟨by rw [Store.nextId_bind]; exact h.inside, ?_, fun other v bound => ?_⟩
  · rw [Store.scope_bind, if_pos ⟨rfl, h.inside⟩]
    exact h.outermost
  · rw [Store.scope_bind, if_pos ⟨rfl, h.inside⟩] at bound
    rcases Assoc.mem_insert bound with old | new
    · exact h.bound other v old
    · cases new
      exact ⟨serial, parameters, body, rfl, free⟩

end Store.BindsMacros

namespace Enclosure

/-- The quotations in the expansion of a program. -/
def expansion (first : Machine) (e : ScopeId) : Enclosure where
  known := (· = e)
  start := first.store.nextId
  first := first.pieces
  given _ := False

/-- In an expansion the old scopes and pieces stay as they are. -/
def expanding (first : Machine) (e : ScopeId) : Motion Machine where
  Holds m := (expansion first e).setting.Sound m ∧ first.store.Extends m.store
  Later := (expansion first e).setting.Later
  refl := .refl
  trans := .trans

variable {first m : Machine} {e : ScopeId} {depth : Nat}

theorem sound_expansion (solid : first.pieces.Solid) (macros : first.store.BindsMacros e) :
    (expansion first e).setting.Sound first where
  start_le := Nat.le_refl _
  pieces := .start solid nofun
  store := by
    have known (id : ScopeId) : ((expansion first e).setting.limits first).scope id ↔ id = e :=
      iff_of_eq (congrFun Allowed.at_start id)
    refine ⟨fun allowed bound => ?_, fun allowed around => ?_⟩
    · rw [(known _).1 allowed] at bound
      obtain ⟨serial, parameters, body, rfl, -⟩ := macros.bound _ _ bound
      exact .macroValue (fun _ _ => trivial) trivial
    · rw [(known _).1 allowed, macros.outermost] at around
      cases around

theorem expanding_outcome {c : Nat → Eval Value}
    (runs : (expansion first e).setting.Runs (pure depth) m c (expansion first e).setting.Value)
    (extends_ : Preserves (fun m => first.store.Extends m.store) (c depth)) :
    (expanding first e).Runs m (Expand.outcome (c depth)) fun m' outcome =>
      ∀ v, outcome = .value v ∨ outcome = .returned v → (expansion first e).setting.Value m' v := by
  rintro ⟨sound, old⟩
  have ended := Settles.pure_iff.1 (runs sound)
  have old' := extends_ m old
  rw [Expand.run_outcome]
  cases ran : (c depth).run m with
  | ok v m' =>
      rw [ran] at ended old'
      refine ⟨ended.1, ⟨ended.2.1, old'⟩, ?_⟩
      rintro w (same | same) <;> cases same
      exact ended.2.2
  | error exit m' =>
      rw [ran] at ended old'
      cases exit with
      | halted halt => exact ⟨ended.1, ended.2.1, old'⟩
      | failed fault =>
          refine ⟨ended.1, ⟨ended.2.1, old'⟩, ?_⟩
          rintro w (same | same) <;> cases same
      | returned v =>
          refine ⟨ended.1, ⟨ended.2.1, old'⟩, ?_⟩
          rintro w (same | same) <;> cases same
          exact ended.2.2

/-- The body of a macro comes to a value made of the arguments. -/
theorem runs_body (C : Enclosure) (inside : C.setting.Scope m e) (parameters : List Node)
    {body : Node} (free : ∀ id, ¬ body.Refers id) {arguments : List Node}
    (quoted : ∀ a ∈ arguments, C.setting.quoted m.pieces a) :
    C.setting.Runs (pure depth) m (fun i => Expansion.body i parameters body e arguments)
      C.setting.Value := by
  have quotes : C.setting.Runs (pure depth) m (fun _ => arguments.mapM Eval.newQuote) fun m' vs =>
      True ∧ List.Forall₂ (fun _ v => C.setting.Value m' v) arguments vs :=
    .mapM (I := fun _ => True) (R := fun m' _ v => C.setting.Value m' v)
      (fun later fits => later.value fits)
      (fun a mem m' later _ => (Eval.Setting.Runs.newQuote C.quotable
        (C.setting.quoted_moves later.moves (quoted a mem))).mono fun _ _ _ _ h => ⟨trivial, h⟩)
      trivial
  refine quotes.bind fun values m₁ later₁ _ ⟨_, fits⟩ => ?_
  refine .inside (fun i inner => MonkeyLang.evaluate i body inner) (later₁.scope inside) (fun b mem => ?_)
    fun inner m₂ _ inside₂ => C.evaluate depth inside₂ fun id refers => absurd refers (free id)
  exact Eval.Setting.forall_right fits (fun _ _ h => h) _ (List.of_mem_zip (Assoc.mem_ofList mem)).2

theorem expanding_replacement (inside : (expansion first e).setting.Scope m e) (name : Text)
    (parameters : List Node) {body : Node} (free : ∀ id, ¬ body.Refers id) {arguments : List Node}
    (quoted : ∀ a ∈ arguments, (expansion first e).setting.quoted m.pieces a) :
    (expanding first e).Runs m (Expansion.replacement depth name parameters body e arguments)
      fun m' n => (expansion first e).setting.quoted m'.pieces n := by
  unfold Expansion.replacement
  split
  · exact .throw
  · refine (expanding_outcome (runs_body _ inside parameters free quoted)
      (Expansion.body_extends first.store depth parameters body e arguments)).bind
        fun outcome m' _ fits => ?_
    cases outcome with
    | failed fault => exact .throw
    | value v | returned v =>
        have fits := fits v (by simp)
        cases v with
        | quote serial node => exact .pure (Value.Fits.quote_iff.1 fits)
        | _ => exact .throw

theorem expanding_step (depth : Nat) (macros : first.store.BindsMacros e) {node : Node}
    (quoted : (expansion first e).setting.quoted m.pieces node) :
    (expanding first e).Runs m (Expansion.step depth e node) fun m' n =>
      (expansion first e).setting.quoted m'.pieces n := by
  unfold Expansion.step
  split
  · next t u name arguments =>
    refine .of_holds fun ⟨sound, old⟩ => .get_bind ?_
    split
    · next serial parameters body inner found =>
        obtain ⟨_, _, _, same, free⟩ := (macros.extend old).lookup found
        cases same
        have argumentsQuoted (a : Node) (mem : a ∈ arguments) :
            (expansion first e).setting.quoted m.pieces a :=
          (expansion first e).quotable.child rfl quoted (.tail _ mem)
        refine (expanding_replacement (.inl rfl) name parameters free argumentsQuoted).bind
          fun result m' _ quoted' => ?_
        refine Motion.Runs.bind (.modifyGet (.of_same rfl rfl) (fun holds => ?_) quoted')
          fun _ m'' _ quoted'' => .pure quoted''
        exact ⟨holds.1.of_same rfl rfl, holds.2⟩
    · exact .pure quoted
  · exact .pure quoted

end Enclosure

open Enclosure in
/-- An expansion of a program without pieces changes no old scope and no old piece. -/
theorem expand_extends_pieces {m : Machine} {e : ScopeId} (solid : m.pieces.Solid)
    (macros : m.store.BindsMacros e) {program : Node} (free : ∀ id, ¬ program.Refers id)
    (depth : Nat) :
    let r := (expand depth e program).run m
    m.store.Extends (finalState r).store ∧ m.pieces.Extends (finalState r).pieces ∧
      (finalState r).pieces.Solid ∧
      ∀ n m', r = .ok n m' → ∀ id, n.Refers id → id < m'.pieces.nextId := by
  intro r
  let quoted := (expansion m e).setting.quoted
  have runs : (expanding m e).Runs m (expand depth e program) fun m' n => quoted m'.pieces n := by
    refine .transformM (fun s s' n later => ?_) (fun n => ∀ id, ¬ n.Refers id)
      (fun n c free mem id refers => free id (.child mem refers))
      (fun _ id refers => absurd refers (Node.not_refers_of_not_isCompound rfl rfl id))
      (fun n ns m' free length_eq all => expanding_step _ macros fun id refers => ?_) free
    · exact (expansion m e).setting.quoted_moves later.moves
    · have other : n.isPiece = false := by
        cases n with
        | piece id => exact absurd .piece (free id)
        | _ => rfl
      obtain ⟨c, mem, refers⟩ := (Node.refers_withChildren other length_eq).1 refers
      exact all c mem id refers
  have ended := runs ⟨sound_expansion solid macros, .refl⟩
  have kept {m' : Machine} (holds : (expanding m e).Holds m') :
      m.store.Extends m'.store ∧ m.pieces.Extends m'.pieces ∧ m'.pieces.Solid :=
    have pieces : (expansion m e).Holds m'.pieces := holds.1.pieces
    ⟨holds.2, ⟨pieces.nextId_le, fun id old => pieces.same id old not_false⟩, pieces.solid⟩
  cases ran : r with
  | ok n m' =>
      rw [show (expand depth e program).run m = .ok n m' from ran] at ended
      obtain ⟨store, pieces, solid'⟩ := kept ended.2.1
      refine ⟨store, pieces, solid', fun n' m'' same id refers => ?_⟩
      cases same
      exact (ended.2.2 id refers).1
  | error refusal m' =>
      rw [show (expand depth e program).run m = .error refusal m' from ran] at ended
      obtain ⟨store, pieces, solid'⟩ := kept ended.2
      exact ⟨store, pieces, solid', nofun⟩

end MonkeyLang
