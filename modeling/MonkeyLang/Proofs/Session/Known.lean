import MonkeyLang.Proofs.Session.Numbered
import MonkeyLang.Proofs.Session.Quotations

/-!
# What a machine knows

A machine knows a value if all that can be reached from it is there: the scopes, the pieces of program,
and the numbers of values. From what is known nothing leads out, so that an evaluation with known
values meets nothing that comes to be there later.

* `Machine.Knows` says what is known; it is a property of all that can be reached.
* `Machine.KeepsCalm.join`: the scopes that are reached from known places may be added to those of the
  values of a session.
* `Machine.Steady.knows` leads back: values whose scopes are among those of a session are known.
-/

namespace MonkeyLang

open Session (values macros)

/-- What the value itself holds is on the machine: its number has been given out, and so have those of
the pieces that it refers to. No call of `unquote` stands in a quotation, and no value is a macro. -/
def Value.There (m : Machine) (v : Value) : Prop :=
  v.Given m.nextSerial ∧ match v with
    | .function _ parameters body _ =>
      ∀ n ∈ body :: parameters, ∀ id, n.Refers id → id < m.pieces.nextId
    | .quote _ node => m.pieces.Tree (fun n => n.unquotes? = none) node
    | .macroValue _ _ _ _ => False
    | _ => True

/-- The place is on the machine, and it is not among the macros. -/
def Place.There (m : Machine) : Place → Prop
  | .scope id => id < m.store.nextId ∧ id ≠ macros
  | .value v => v.There m

/-- The place is one of these values. -/
def Place.Among (vs : List Value) (p : Place) : Prop := ∃ v ∈ vs, p = .value v

/-- The scope can be reached from one of these places. -/
def Store.ScopeFrom (s : Store) (places : Place → Prop) (id : ScopeId) : Prop :=
  ∃ p, places p ∧ s.Reaches p (.scope id)

/-- All that can be reached from the place is on the machine. -/
def Machine.Knows (m : Machine) (p : Place) : Prop := ∀ q, m.store.Reaches p q → q.There m

/-! ## Parts and numbers -/

theorem Value.Part.reaches {s : Store} {v w : Value} (part : w.Part v) :
    s.Reaches (.value v) (.value w) := by
  induction part with
  | self => exact .refl
  | @inside u v mem _ ih =>
      cases v with
      | array serial vs => exact .head (.element mem) ih
      | hash serial es =>
          obtain ⟨entry, entryMem, rfl | rfl⟩ := Value.mem_elements_hash.1 mem
          · exact .head (.key entryMem) ih
          · exact .head (.entry entryMem) ih
      | _ => cases mem

/-- The numbers at the place are among the first `count`. -/
def Place.Numbered (count : Nat) : Place → Prop
  | .scope _ => True
  | .value v => v.Numbered count

theorem Machine.Numbered.reaches {m : Machine} (h : m.Numbered) {p q : Place}
    (numbered : p.Numbered m.nextSerial) (steps : m.store.Reaches p q) :
    q.Numbered m.nextSerial := by
  induction steps with
  | refl => exact numbered
  | tail _ step ih =>
      cases step with
      | binding bound => exact h _ _ _ bound
      | outer => trivial
      | element mem => exact (Value.Numbered.iff_elements.1 ih).2 _ mem
      | key mem => exact ((Value.Numbered.hash_iff.1 ih).2 _ mem).1
      | entry mem => exact ((Value.Numbered.hash_iff.1 ih).2 _ mem).2
      | closure => trivial

namespace Machine

variable {known kept : ScopeId → Prop} {m m' : Machine} {p q : Place}

namespace Knows

/-- Nothing is reached from a value that holds nothing. -/
theorem bare {v : Value} (h : v.isBare = true) : m.Knows (.value v) := by
  intro q steps
  cases steps.cases_head with
  | inl same =>
      subst same
      cases v <;> first | exact ⟨trivial, trivial⟩ | cases h
  | inr more =>
      obtain ⟨_, step, -⟩ := more
      cases step <;> cases h

theorem there (h : m.Knows p) : p.There m := h p .refl

theorem reaches (h : m.Knows p) (steps : m.store.Reaches p q) : m.Knows q :=
  fun q' later => h q' (steps.trans later)

theorem numbered (h : m.Knows p) : p.Numbered m.nextSerial := by
  cases p with
  | scope id => trivial
  | value v => exact fun w part => (h _ part.reaches).1

/-- What is known keeps to the limits of known scopes. -/
theorem fits (h : m.Knows p) (scopes : ∀ id, m.store.Reaches p (.scope id) → known id) :
    p.Fits (.calm known m.pieces) := by
  cases p with
  | scope id => exact scopes id .refl
  | value v =>
      refine Value.fits_of_reaches (s := m.store) v fun w steps => ?_
      have there := (h _ steps).2
      cases w with
      | function serial parameters body scope =>
          exact ⟨scopes _ (steps.tail .closure), fun n mem => there n (.tail _ mem),
            there body (.head _)⟩
      | quote serial node => exact Pieces.Tree.mono there fun n other => ⟨other, False.elim⟩
      | macroValue => exact there.elim
      | _ => trivial

end Knows

/-- Scopes that are reached from known places may be added to those of the values. -/
theorem KeepsCalm.join (h : m.KeepsCalm known) (places : Place → Prop)
    (knows : ∀ p, places p → m.Knows p) :
    m.KeepsCalm fun id => known id ∨ m.store.ScopeFrom places id where
  root := .inl h.root
  apart := by
    rintro (old | ⟨p, mem, steps⟩)
    · exact h.apart old
    · exact (knows p mem _ steps).2 rfl
  inside := by
    rintro id (old | ⟨p, mem, steps⟩)
    · exact h.inside id old
    · exact (knows p mem _ steps).1
  binds := h.binds
  solid := h.solid
  fits := by
    constructor
    · rintro id name v (old | ⟨p, mem, steps⟩) bound
      · exact (h.fits.binding old bound).mono (Value.Limits.calm_le (fun _ => .inl) .refl)
      · have bound := steps.tail (.binding bound)
        exact ((knows p mem).reaches bound).fits (p := .value v)
          fun id later => .inr ⟨p, mem, bound.trans later⟩
    · rintro id around (old | ⟨p, mem, steps⟩) outer
      · exact .inl (h.fits.outer old outer)
      · exact .inr ⟨p, mem, steps.tail (.outer outer)⟩

/-- The scopes of the values of a session, some of which are kept, and the numbers of all values are in
order. -/
structure Steady (kept : ScopeId → Prop) (m : Machine) : Prop where
  calm : ∃ known, (∀ id, kept id → known id) ∧ m.KeepsCalm known
  numbered : m.Numbered

/-- What was there is there still. -/
structure Later (m m' : Machine) : Prop where
  scopes : m.store.nextId ≤ m'.store.nextId
  pieces : m.pieces.Extends m'.pieces
  serials : m.nextSerial ≤ m'.nextSerial

theorem Later.refl : m.Later m := ⟨Nat.le_refl _, .refl, Nat.le_refl _⟩

theorem Later.trans {m₁ m₂ m₃ : Machine} (h₁ : m₁.Later m₂) (h₂ : m₂.Later m₃) : m₁.Later m₃ :=
  ⟨Nat.le_trans h₁.scopes h₂.scopes, h₁.pieces.trans h₂.pieces, Nat.le_trans h₁.serials h₂.serials⟩

/-- What keeps to the limits of the values of a session is known. -/
theorem KeepsCalm.knows (h : m.KeepsCalm known) (numbered : m.Numbered)
    (fits : p.Fits (.calm known m.pieces)) (given : p.Numbered m.nextSerial) : m.Knows p := by
  intro q steps
  have fits := h.fits.reaches fits steps
  have given := numbered.reaches given steps
  cases q with
  | scope id => exact ⟨h.inside id fits, fun same => h.apart (same ▸ fits)⟩
  | value v =>
      refine ⟨given v .self, ?_⟩
      cases v with
      | function serial parameters body scope =>
          obtain ⟨-, parameters, body⟩ := Value.Fits.function_iff.1 fits
          exact List.forall_mem_cons.2 ⟨body, parameters⟩
      | quote serial node => exact (Value.Fits.quote_iff.1 fits).mono fun n calm => calm.other
      | macroValue serial parameters body scope =>
          cases fits with
          | bare h => cases h
          | macroValue _ held => exact held
      | _ => trivial

namespace Steady

/-- Scopes that are reached from known places may be kept. -/
theorem join (h : m.Steady kept) (places : Place → Prop) (knows : ∀ p, places p → m.Knows p) :
    m.Steady fun id => kept id ∨ m.store.ScopeFrom places id := by
  obtain ⟨known, more, calm⟩ := h.calm
  exact ⟨⟨_, fun id => .imp_left (more id), calm.join places knows⟩, h.numbered⟩

/-- All that is bound among the values is known. -/
theorem knows_values (h : m.Steady kept) : m.Knows (.scope values) :=
  have ⟨_, _, calm⟩ := h.calm
  calm.knows h.numbered calm.root trivial

/-- What is known stays known while its scopes are kept. -/
theorem knows (h : m'.Steady kept) (later : m.Later m') (knows : m.Knows p)
    (scopes : ∀ id, m.store.Reaches p (.scope id) → kept id) : m'.Knows p := by
  obtain ⟨known, more, calm⟩ := h.calm
  refine calm.knows h.numbered ?_ ?_
  · have fits := knows.fits fun id steps => more id (scopes id steps)
    cases p with
    | scope id => exact fits
    | value v => exact Value.Fits.mono fits (Value.Limits.calm_le (fun _ h => h) later.pieces)
  · have given := knows.numbered
    cases p with
    | scope id => trivial
    | value v => exact Value.Numbered.mono given later.serials

end Steady

end Machine

end MonkeyLang
