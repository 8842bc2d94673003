import MonkeyLang.Proofs.Session.Observed
import MonkeyLang.Proofs.Session.Values
import MonkeyLang.Proofs.Store.Links

/-!
# Preludes do not matter to others

A unit of source that has no identifier in common with what is bound in a session comes to the same
there as in a new session. What has been evaluated before makes the session hold more scopes,
pieces and bindings, but the unit meets none of them.

* `Session.Like.start`: every session that is reached holds a new one.
* `prelude_does_not_matter` is the result.
-/

namespace MonkeyLang

open Session (values macros machine₀)

/-! ## Outermost scopes -/

theorem Store.get?_of_lookup {s : Store} {id : ScopeId} {name : Text}
    (unbound : s.lookup id name = none) : (s.scope id).bindings.get? name = none := by
  rw [Store.lookup] at unbound
  split at unbound
  · cases unbound
  · assumption

namespace Session

/-! ## New sessions inside others -/

/-- How the numbers differ in a session that has evaluated units before. -/
def following (s : Session) : Renumbering where
  scopes := ⟨2, s.machine.store.nextId - 2⟩
  pieces := ⟨0, s.machine.pieces.nextId⟩
  serials := ⟨0, s.machine.nextSerial⟩
  shared id := id < 2
  extra id := if id < 2 then (s.machine.store.scope id).bindings else []
  inner _ inner := if_neg (Nat.not_lt.2 inner)
  printed := []
  printed' := s.machine.printed

theorem following_met (s : Session) (id : ScopeId) : s.following.Met id := Nat.lt_or_ge id 2

theorem following_free {s : Session} {name : Text} (noValue : s.value? name = none)
    (noMacro : s.macro? name = none) : s.following.Free name := by
  rintro (id : Nat)
  match id with
  | 0 => exact Store.get?_of_lookup noValue
  | 1 => exact Store.get?_of_lookup noMacro
  | _ + 2 => rfl

theorem scope_machine₀ (id : ScopeId) : machine₀.store.scope id = ⟨[], none⟩ := by
  match id with
  | 0 | 1 | _ + 2 => rfl

/-- The outermost scopes of a new session are empty, and there are no others. -/
theorem store_machine₀_like {s : Session} (grown : machine₀.store.Grows s.machine.store) :
    machine₀.store.Like s.following 0 s.machine.store := by
  have two : 2 ≤ s.machine.store.nextId := grown.nextId_le
  refine ⟨(Nat.add_sub_of_le two).symm, Nat.le_refl 2, fun (id : Nat) _ => ?_⟩
  have outermost (inside : id < 2) : (s.machine.store.scope id).outer = none := by
    rw [grown.outer_eq id inside, scope_machine₀]
  rw [scope_machine₀]
  match id with
  | 0 => exact ⟨outermost (by decide), nofun, [], (List.append_nil _).symm, .nil⟩
  | 1 => exact ⟨outermost (by decide), nofun, [], (List.append_nil _).symm, .nil⟩
  | id + 2 =>
      -- A scope that the new session does not have has the number of one that is not there.
      have other : s.machine.store.nextId ≤ s.following.scope (id + 2) := by
        calc s.machine.store.nextId
          _ = 2 + (s.machine.store.nextId - 2) := (Nat.add_sub_of_le two).symm
          _ ≤ id + 2 + (s.machine.store.nextId - 2) :=
            Nat.add_le_add_right (Nat.le_add_left 2 id) _
      rw [Store.scope_of_le other]
      exact ⟨rfl, nofun, [], rfl, .nil⟩

/-- There are no pieces in a new session. -/
theorem pieces_machine₀_like (s : Session) :
    machine₀.pieces.Like s.following.pieces s.following.Free s.machine.pieces := by
  have none : machine₀.pieces = .empty := rfl
  rw [none]
  refine ⟨(Nat.zero_add _).symm, Nat.zero_le _, ?_⟩
  rintro (id : Nat) _ ⟨rfl, inside⟩
  have behind : s.machine.pieces.nextId ≤ s.following.pieces.move id := by
    rw [Shift.move_of_le _ (Nat.zero_le id)]
    exact Nat.le_add_left _ id
  rw [Pieces.get_of_le (Nat.zero_le id), Pieces.get_of_le behind]
  exact .missing

/-- A session that is reached holds a new one, behind what it has evaluated. -/
theorem Like.start {s : Session} (reached : s.Reached) {limit : Int}
    (limits : s.limit = (Session.start limit).limit) :
    (Session.start limit).Like s.following s := by
  have grown : machine₀.store.Grows s.machine.store :=
    reached.invariant (fun m => machine₀.store.Grows m.store) .refl (fun _ _ h => h)
      (grows machine₀.store)
  have serials : s.machine.nextSerial = 0 + s.machine.nextSerial := (Nat.zero_add _).symm
  have printed : s.machine.printed = s.machine.printed ++ [] := (List.append_nil _).symm
  exact ⟨⟨rfl, store_machine₀_like grown, pieces_machine₀_like s, serials, Nat.zero_le _, [], rfl,
    printed⟩, limits, following_met s⟩

end Session

/-- Let a prelude be evaluated without being refused, and let no identifier of a source be bound by
it, neither among the values nor among the macros. Then the source comes to the same as without the
prelude, it prints the same lines, and afterwards each of its identifiers is bound in both sessions
to a value or a macro with the same text, or in none. -/
theorem prelude_does_not_matter {limit : Int} {prelude source : Text} {s : Session}
    (started : Session.startWith limit prelude = .ok s)
    (apart : ∀ t ∈ lex source, t.kind = .ident →
      s.value? t.literal = none ∧ s.macro? t.literal = none) :
    s.report source = (Session.start limit).report source ∧
      s.output source = (Session.start limit).output source ∧
      ∀ t ∈ lex source, t.kind = .ident →
        (s.eval source).2.shown? values t.literal =
            ((Session.start limit).eval source).2.shown? values t.literal ∧
          (s.eval source).2.shown? macros t.literal =
            ((Session.start limit).eval source).2.shown? macros t.literal := by
  have like : (Session.start limit).Like s.following s :=
    .start (.startWith started) (Session.limit_of_startWith started)
  have free {t : Token} (mem : t ∈ lex source) (ident : t.kind = .ident) :
      s.following.Free t.literal :=
    Session.following_free (apart t mem ident).1 (apart t mem ident).2
  have sources : s.following.Sources source source := ⟨rfl, fun _ mem ident => free mem ident⟩
  have sharedValues : s.following.scope values = values := rfl
  have sharedMacros : s.following.scope macros = macros := rfl
  refine ⟨(like.report_eq sharedValues sharedMacros sources).symm,
    (like.output_eq sharedValues sharedMacros sources).symm, fun t mem ident => ?_⟩
  have after := (like.eval sharedValues sharedMacros sources).1
  have seen (scope : ScopeId) := after.shown?_eq (free mem ident) scope
  exact ⟨(seen values).symm, (seen macros).symm⟩

/-- A prelude with a function, a macro and output, before a unit with a macro of its own. -/
theorem prelude_does_not_matter_macro :
    let prelude := "let id = fn(x) \x7b x \x7d; let next = macro(x) \x7b quote(unquote(x) + 1) \x7d;
      puts(id(fn() \x7b next(2) \x7d));"
    let source := "let m = macro(y) \x7b quote([unquote(y)]) \x7d; let a = m(1); puts(a); a"
    let s := ((Session.start 0).eval prelude).2
    Session.startWith 0 prelude = .ok s ∧ s.report source = (Session.start 0).report source ∧
      s.output source = (Session.start 0).output source := by
  intro prelude source s
  have accepted : ((Session.start 0).eval prelude).1.isOk = true := by decide +kernel
  have started : Session.startWith 0 prelude = .ok s :=
    Session.startWith_eq_ok (by decide +kernel) accepted
  have apart : ∀ t ∈ lex source, t.kind = .ident →
      s.value? t.literal = none ∧ s.macro? t.literal = none := by
    decide +kernel
  obtain ⟨report, output, -⟩ := prelude_does_not_matter started apart
  exact ⟨started, report, output⟩

end MonkeyLang
