import MonkeyLang.Proofs.Evaluation.Deeper
import MonkeyLang.Proofs.Session.Observed
import MonkeyLang.Proofs.Session.Onward

/-!
# Calls are repeatable

A call of known values comes to the same whenever it is repeated, as long as nothing has been bound in
the scopes that can be reached from the values. The second call finds a machine with more scopes,
pieces and numbers of values, and so what it makes has other numbers. But it meets none of the scopes
and pieces that have come in between: it is the first call under other numbers.

* `Renumbering.again` says how the numbers differ, `Machine.like_again` that the machines are like
  each other where the call may look.
* `Eval.seen` is what is seen of a computation, and `Machine.seen_again` that it is the same.
* `calls_repeat` is the result for all sessions.
-/

namespace MonkeyLang

open Session (values)

/-- The gap that is left by the numbers from `first` up to `next`. -/
def Shift.between (first next : Nat) : Shift := ⟨first, next - first⟩

theorem Shift.between_move {first next : Nat} (h : first ≤ next) :
    (Shift.between first next).move first = next :=
  ((Shift.between first next).move_of_le (Nat.le_refl first)).trans (Nat.add_sub_of_le h)

namespace Renumbering

/-- How the numbers differ of a computation on `m` and of the same one on the later machine `m'`, if it
meets only those old scopes that can be reached from some places. -/
def again (places : Place → Prop) (m m' : Machine) : Renumbering where
  scopes := .between m.store.nextId m'.store.nextId
  pieces := .between m.pieces.nextId m'.pieces.nextId
  serials := .between m.nextSerial m'.nextSerial
  shared := m.store.ScopeFrom places
  extra _ := []
  inner _ _ := rfl
  printed := m.printed
  printed' := m'.printed

end Renumbering

namespace Machine

variable {m m' : Machine} {places : Place → Prop}

/-! ## What is the same -/

/-- A tree that refers to old pieces only is like itself. -/
theorem tree_again {n : Node} (inside : ∀ id, n.Refers id → id < m.pieces.nextId) :
    (Renumbering.again places m m').Trees m.pieces.nextId n n :=
  .of_refers (fun _ _ => rfl) fun id refers =>
    ⟨(Shift.move_of_lt _ (inside id refers)).symm, .inr (inside id refers)⟩

/-- So is a known value. -/
theorem value_again {v : Value} (knows : m.Knows (.value v))
    (scopes : ∀ id, m.store.Reaches (.value v) (.scope id) → m.store.ScopeFrom places id) :
    v.Like (.again places m m') m.pieces.nextId v := by
  refine .of_fixed fun w part => ?_
  have there := (knows.reaches part.reaches).there
  have same {serial : Nat} (given : serial < m.nextSerial) :
      (Renumbering.again places m m').serials.move serial = serial := Shift.move_of_lt _ given
  cases w with
  | array serial vs => exact same there.1
  | hash serial es => exact same there.1
  | quote serial node =>
      exact ⟨same there.1, tree_again fun id refers => (Pieces.Tree.refers there.2 refers).inside⟩
  | function serial parameters body scope =>
      have steps : m.store.Reaches (.value v) (.scope scope) := part.reaches.tail .closure
      have inside : scope < m.store.nextId := (knows _ steps).1
      exact ⟨same there.1, Shift.move_of_lt _ inside, .inl (scopes scope steps),
        fun n mem => tree_again (there.2 n mem)⟩
  | macroValue => exact there.2.elim
  | _ => trivial

section

variable (knows : ∀ p, places p → m.Knows p) (later : m.Later m')
  (unchanged : ∀ id, m.store.ScopeFrom places id → m'.store.scope id = m.store.scope id)
include knows later unchanged

/-- The scopes that can be reached are the same ones, and later scopes are not there yet. -/
theorem store_again : m.store.Like (.again places m m') m.pieces.nextId m'.store := by
  refine ⟨(Shift.between_move later.scopes).symm, Nat.le_refl _, fun id met => ?_⟩
  rcases met with ⟨p, mem, steps⟩ | new
  · have inside (id : ScopeId) (steps : m.store.Reaches p (.scope id)) :
        (Renumbering.again places m m').scope id = id :=
      Shift.move_of_lt _ (knows p mem _ steps).1
    rw [inside id steps, unchanged id ⟨p, mem, steps⟩]
    refine ⟨?_, fun around outer => .inl ⟨p, mem, steps.tail (.outer outer)⟩, _, rfl, ?_⟩
    · cases outer : (m.store.scope id).outer with
      | none => rfl
      | some around => exact congrArg some (inside around (steps.tail (.outer outer))).symm
    · refine List.forall₂_same.2 fun ⟨name, v⟩ bound => ⟨rfl, ?_⟩
      have steps := steps.tail (.binding bound)
      exact value_again ((knows p mem).reaches steps) fun id more => ⟨p, mem, steps.trans more⟩
  · have new' : m'.store.nextId ≤ (Renumbering.again places m m').scope id := by
      calc m'.store.nextId
        _ = (Renumbering.again places m m').scope m.store.nextId :=
          (Shift.between_move later.scopes).symm
        _ ≤ (Renumbering.again places m m').scope id :=
          Nat.le_of_not_lt (mt (Shift.move_lt_move _).1 (Nat.not_lt_of_le new))
    rw [Store.scope_of_le new, Store.scope_of_le new']
    exact ⟨rfl, nofun, [], rfl, .nil⟩

omit knows unchanged in
/-- The old pieces are as they were. -/
theorem pieces_again (solid : m.pieces.Solid) :
    m.pieces.Like (Renumbering.again places m m').pieces (Renumbering.again places m m').Free
      m'.pieces := by
  refine ⟨(Shift.between_move later.pieces.nextId_le).symm, Nat.le_refl _, ?_⟩
  rintro id _ ⟨rfl, place⟩
  rcases Nat.lt_or_ge id m.pieces.nextId with inside | outside
  · rw [Shift.move_of_lt _ inside, later.pieces.get_eq id inside]
    exact tree_again (solid id inside).2
  · -- A number that is none yet counts only where none has come in between.
    have none : m'.pieces.nextId - m.pieces.nextId = 0 := place.resolve_right (Nat.not_lt_of_le outside)
    have outside' : m'.pieces.nextId ≤ id :=
      Nat.le_trans (Nat.le_of_sub_eq_zero none) outside
    rw [Shift.move_of_gap _ none, Pieces.get_of_le outside, Pieces.get_of_le outside']
    exact .missing

/-- A later machine is like the one before, where nothing has been bound that is met. -/
theorem like_again (solid : m.pieces.Solid) :
    m.Like (.again places m m') m.pieces.nextId m' where
  size := rfl
  store := store_again knows later unchanged
  pieces := pieces_again later solid
  serials := (Shift.between_move later.serials).symm
  base_le := Nat.le_refl _
  printed := ⟨[], (List.append_nil _).symm, (List.append_nil _).symm⟩

end

end Machine

/-! ## What is seen -/

/-- What is seen of a computation: the kind and the text of what it comes to, or the halt; and the lines
that it prints. -/
def Eval.seen (c : Eval Value) (m : Machine) :
    Except Halt (Kind × Except Halt Text) × List Text :=
  ((c.outcome m).1.map fun outcome => (outcome.kind, outcome.inspect (c.outcome m).2.pieces),
    (c.outcome m).2.printed.drop m.printed.length)

namespace Eval

variable {c c' : Eval Value} {m m' : Machine} {T : Renumbering} {b : Nat}

theorem shown_eq (like : m.Like T b m') {outcome outcome' : Outcome}
    (outcomes : outcome.Like T b outcome') :
    (outcome'.kind, outcome'.inspect m'.pieces) = (outcome.kind, outcome.inspect m.pieces) := by
  have outcomes : outcome.Like T m.pieces.nextId outcome' := like.size.symm ▸ outcomes
  rw [outcomes.kind_eq, outcomes.inspect_eq like.pieces]

/-- Computations that are like each other are not told apart. -/
theorem seen_eq_of_paired (paired : T.Paired b c c' fun b' => Value.Like T b')
    (like : m.Like T b m') : c'.seen m' = c.seen m := by
  have ended := paired m m' like
  unfold seen
  rw [outcome_eq, outcome_eq]
  generalize c.run m = r, c'.run m' = r' at ended ⊢
  cases ended with
  | ok more states holds =>
      exact Prod.ext (congrArg Except.ok (shown_eq states (.value holds)))
        (like.printed_drop_eq states).symm
  | error more states exits =>
      have lines := (like.printed_drop_eq states).symm
      cases exits with
      | failed => exact Prod.ext (congrArg Except.ok (shown_eq states .failed)) lines
      | returned holds =>
          exact Prod.ext (congrArg Except.ok (shown_eq states (.returned holds))) lines
      | halted => exact Prod.ext rfl lines

/-- Computations that come to the same are not told apart. -/
theorem seen_congr (same : c'.run m = c.run m) : c'.seen m = c.seen m := by
  unfold seen outcome
  rw [same]

/-- More room does not matter to a computation that has not overflowed. -/
theorem Within.seen_eq (h : Within c c') (ends : (c.seen m).1 ≠ .error .overflow) :
    c'.seen m = c.seen m := by
  rcases h m with ⟨m', overflows⟩ | same
  · refine absurd ?_ ends
    unfold seen
    rw [outcome_eq, overflows]
    rfl
  · exact seen_congr same

/-- At another depth a family of computations is seen to come to the same, unless it overflows. -/
theorem seen_eq_of_depths {c : Nat → Eval Value} (within : ∀ d d', d ≤ d' → Within (c d) (c d'))
    {depth depth' : Nat} (ends : ((c depth).seen m).1 ≠ .error .overflow)
    (enough : depth ≤ depth' ∨ ((c depth').seen m).1 ≠ .error .overflow) :
    (c depth').seen m = (c depth).seen m := by
  rcases Nat.le_total depth depth' with more | less
  · exact (within depth depth' more).seen_eq ends
  · rcases enough with more | ends'
    · exact (within depth depth' more).seen_eq ends
    · exact ((within depth' depth less).seen_eq ends').symm

end Eval

/-! ## Calls -/

/-- On a later machine a call is seen to come to the same, if nothing has been bound where it may
look. -/
theorem Machine.call_again {m m' : Machine} {f : Value} {vs : List Value}
    (knows : ∀ v ∈ f :: vs, m.Knows (.value v)) (solid : m.pieces.Solid) (later : m.Later m')
    (unchanged : ∀ v ∈ f :: vs, ∀ id, m.store.Reaches (.value v) (.scope id) →
      m'.store.scope id = m.store.scope id) (depth : Nat) :
    (Eval.apply (evaluate depth) f vs).seen m' = (Eval.apply (evaluate depth) f vs).seen m := by
  have like : m.Like (.again (Place.Among (f :: vs)) m m') m.pieces.nextId m' := by
    refine like_again (fun p ⟨v, mem, same⟩ => same ▸ knows v mem) later ?_ solid
    rintro id ⟨_, ⟨v, mem, rfl⟩, steps⟩
    exact unchanged v mem id steps
  have values (v : Value) (mem : v ∈ f :: vs) :
      v.Like (.again (Place.Among (f :: vs)) m m') m.pieces.nextId v :=
    value_again (knows v mem) fun id steps => ⟨_, ⟨v, mem, rfl⟩, steps⟩
  exact Eval.seen_eq_of_paired (Renumbering.apply_paired
    (fun e met => Renumbering.evaluate_paired depth met) (values f (.head _))
    (List.forall₂_same.2 fun v mem => values v (.tail _ mem))) like

namespace Session

/-- What the session gives out is known: what is bound among the values, and what comes of units, of
evaluations in known scopes and of calls of known values; so are numbers, texts and the like. What is
known stays known. -/
structure KnowsResults (s : Session) : Prop where
  bare : ∀ v : Value, v.isBare = true → s.machine.Knows (.value v)
  bound : s.machine.Knows (.scope values)
  run : ∀ source answer, (s.run source).1 = .ok answer →
    (s.run source).2.machine.Knows (.value answer.outcome.toValue)
  eval : ∀ source outcome, (s.eval source).1 = .ok outcome →
    (s.eval source).2.machine.Knows (.value outcome.toValue)
  evaluate : ∀ depth n e, s.machine.Knows (.scope e) →
    (∀ id, n.Refers id → id < s.machine.pieces.nextId) →
    ∀ outcome, ((evaluate depth n e).outcome s.machine).1 = .ok outcome →
      (s.after (evaluate depth n e)).machine.Knows (.value outcome.toValue)
  call : ∀ depth f vs, (∀ v ∈ f :: vs, s.machine.Knows (.value v)) →
    ∀ outcome, ((Eval.apply (MonkeyLang.evaluate depth) f vs).outcome s.machine).1 = .ok outcome →
      (s.after (Eval.apply (MonkeyLang.evaluate depth) f vs)).machine.Knows (.value outcome.toValue)
  onward : ∀ t, s.Onward t → ∀ p, s.machine.Knows p → t.machine.Knows p

theorem InUse.knowsResults {s : Session} (inUse : s.InUse) : s.KnowsResults where
  bare _ bare := .bare bare
  bound := inUse.steady.knows_values
  run _ _ answered := run_knows inUse.steady answered
  eval _ _ ended := eval_knows inUse.steady ended
  evaluate depth _ _ knows code := (inUse.steady.evaluate depth knows code).knows
  call depth _ _ knows := (inUse.steady.call depth knows).knows
  onward _ onward _ knows := onward.knows inUse.steady knows

/-- The scopes that can be reached from the values are in the second session as in the first. -/
def Spares (s t : Session) (vs : List Value) : Prop :=
  ∀ v ∈ vs, ∀ id, s.machine.store.Reaches (.value v) (.scope id) →
    t.machine.store.scope id = s.machine.store.scope id

end Session

/-- Every session that is reached is in use, and a session that is in use knows all that it gives out.
A call of known values leaves all scopes and all pieces as they were. Whenever it is repeated, at once or
after any further use of the session that has bound nothing in the scopes that can be reached from the
values, it is seen to come to the same: the same kind and text, or the same halt, after the same lines.
At another depth it is seen so as well, unless one of the two calls overflows, and with more room the
second one does not. -/
theorem calls_repeat :
    (∀ s : Session, s.Reached → s.InUse) ∧
    ∀ s : Session, s.InUse → s.KnowsResults ∧
      ∀ (f : Value) (vs : List Value), (∀ v ∈ f :: vs, s.machine.Knows (.value v)) → ∀ depth : Nat,
        let call depth := Eval.apply (evaluate depth) f vs
        let after := s.after (call depth)
        (s.machine.store.Extends after.machine.store ∧
          s.machine.pieces.Extends after.machine.pieces) ∧
        (call depth).seen after.machine = (call depth).seen s.machine ∧
        ∀ t, after.Onward t → s.Spares t (f :: vs) →
          (call depth).seen t.machine = (call depth).seen s.machine ∧
          ∀ depth', ((call depth).seen s.machine).1 ≠ .error .overflow →
            (depth ≤ depth' ∨ ((call depth').seen t.machine).1 ≠ .error .overflow) →
            (call depth').seen t.machine = (call depth).seen s.machine := by
  refine ⟨fun s reached => reached.inUse, fun s inUse => ⟨inUse.knowsResults, fun f vs knows depth => ?_⟩⟩
  intro call after
  have steady := inUse.steady
  obtain ⟨_, -, calm⟩ := steady.calm
  have ends := steady.call depth knows
  have extends_ : s.machine.store.Extends after.machine.store := apply_extends depth f vs s.machine
  have again (t : Session) (onward : after.Onward t) (spares : s.Spares t (f :: vs)) (depth : Nat) :
      (call depth).seen t.machine = (call depth).seen s.machine :=
    have later := (onward.steady ends.steady).2
    Machine.call_again knows calm.solid (ends.later.trans later) spares depth
  refine ⟨⟨extends_, ends.later.pieces⟩, again after .refl ?_ depth, fun t onward spares => ?_⟩
  · exact fun v mem id steps => extends_.scope_eq id (knows v mem _ steps).1 not_false
  · refine ⟨again t onward spares depth, fun depth' ended enough => ?_⟩
    rw [← again t onward spares depth] at ended ⊢
    exact Eval.seen_eq_of_depths (fun _ _ more => Eval.apply_evaluate_within more f vs) ended enough

/-- A function that prints and quotes is called with one number, with another one, and with the first one
again. -/
theorem quoting_call_repeats :
    let s := ((Session.start 0).run
      "let n = 2; let f = fn(x) \x7b let y = x + n; puts(y); quote(unquote(y) * 2) \x7d;").2
    ∃ f, s.value? "f" = some f ∧
      let call x := Eval.apply (evaluate 40) f [.int x]
      let between := (s.after (call 1)).after (call 7)
      (call 1).seen between.machine = (call 1).seen s.machine ∧
        (call 1).seen s.machine = (.ok (.quote, .ok "QUOTE((3 * 2))"), [↑"3"]) := by
  intro s
  have inUse : s.InUse := calls_repeat.1 s (.run _ (.start 0))
  have seen : ((s.value? "f").map fun f => (Eval.apply (evaluate 40) f [.int 1]).seen s.machine) =
      some (.ok (.quote, .ok "QUOTE((3 * 2))"), [↑"3"]) := by decide +kernel
  cases found : s.value? "f" with
  | none => rw [found] at seen; cases seen
  | some f =>
      rw [found] at seen
      refine ⟨f, rfl, ?_, Option.some_inj.1 seen⟩
      obtain ⟨results, calls⟩ := calls_repeat.2 s inUse
      have knows (x : Int) : ∀ v ∈ [f, .int x], s.machine.Knows (.value v) :=
        List.forall_mem_cons.2 ⟨results.bound.reaches (Store.reaches_of_lookup found),
          List.forall_mem_singleton.2 (results.bare _ rfl)⟩
      obtain ⟨⟨first, -⟩, -, again⟩ := calls f [.int 1] (knows 1) 40
      -- The other call finds the session in which the first one has left it.
      have use := Relation.ReflTransGen.single (Session.Uses.call 40 (knows 1))
      have knows' (v : Value) (mem : v ∈ [f, .int 7]) := results.onward _ use _ (knows 7 v mem)
      obtain ⟨⟨second, -⟩, -, -⟩ := (calls_repeat.2 _ (inUse.onward use)).2 f [.int 7] knows' 40
      refine (again _ (.single (.call 40 knows')) fun v mem id steps => ?_).1
      have inside : id < s.machine.store.nextId := (knows 1 v mem _ steps).1
      rw [second.scope_eq id (Nat.lt_of_lt_of_le inside first.nextId_le) not_false,
        first.scope_eq id inside not_false]

end MonkeyLang
