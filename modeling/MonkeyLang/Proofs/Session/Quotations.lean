import MonkeyLang.Proofs.Evaluation.Isolation
import MonkeyLang.Proofs.Node.Proper
import MonkeyLang.Proofs.Parser.Soundness
import MonkeyLang.Proofs.Quotation.Expanded
import MonkeyLang.Proofs.Quotation.Rewritten
import MonkeyLang.Proofs.Session.Supervised

/-!
# The quotations of a session

A unit makes quotations in two ways. In an expansion the arguments of a macro are quoted as they
stand, with the calls of `unquote` in them; but these quotations stay among the macros, and what comes
of them is program. In the evaluation of a program a quotation is made by the quoting form, which
leaves no call of `unquote` in it, wherever the trees come from that are put into it.

* `Machine.KeepsCalm` says of a machine that the quotations among the values are calm.
* `Session.answer_keepsCalm` says that every unit keeps it so, whatever becomes of the unit.
* `session_quotations_unquoted` is the result for all sessions.
-/

namespace MonkeyLang

open Grammar
open Session (values macros machine₀)

theorem Node.Proper.not_refers {category : Category} {n : Node}
    (h : n.Proper Roles.none category) (id : PieceId) : ¬ n.Refers id := by
  induction h with
  | piece role => cases role
  | hash _ _ keys values =>
      rw [Node.refers_iff_of_not_piece rfl]
      rintro ⟨c, mem, refers⟩
      obtain ⟨p, pair, either⟩ := List.mem_flatMap.1 mem
      simp only [List.mem_cons, List.not_mem_nil, or_false] at either
      rcases either with rfl | rfl
      · exact keys p pair refers
      · exact values p pair refers
  | ifThen =>
      have hole := Node.not_refers_of_not_isCompound (n := .missing) rfl rfl id
      rw [Node.refers_iff_of_not_piece rfl]
      simp_all [Node.children]
  | _ =>
      rw [Node.refers_iff_of_not_piece rfl]
      simp_all [Node.children]

/-- The known scopes hold calm quotations, functions that refer to pieces that are there, and no
macros. -/
def Value.Limits.calm (known : ScopeId → Prop) (p : Pieces) : Value.Limits where
  scope := known
  quoted := p.Tree (Node.Calm False)
  parameter n := ∀ id, n.Refers id → id < p.nextId
  code n := ∀ id, n.Refers id → id < p.nextId
  held _ := False

theorem Value.Limits.calm_le {known known' : ScopeId → Prop} {p p' : Pieces}
    (wider : ∀ id, known id → known' id) (more : p.Extends p') :
    (Value.Limits.calm known p).Le (.calm known' p') where
  scope := wider
  quoted _ tree := tree.of_extends more
  parameter _ inside id refers := Nat.lt_of_lt_of_le (inside id refers) more.nextId_le
  code _ inside id refers := Nat.lt_of_lt_of_le (inside id refers) more.nextId_le
  held _ h := h

/-- Definitions of macros do not touch the pieces. -/
theorem Machine.pieces_defineMacros (m : Machine) (scope : ScopeId)
    (definitions : List MacroDefinition) :
    (definitions.foldl (·.defineMacro scope ·) m).pieces = m.pieces := by
  induction definitions generalizing m with
  | nil => rfl
  | cons d definitions ih => exact ih _

/-- Among the values there are calm quotations only: these are the scopes that are known, and the
scope of macros is none of them. -/
structure Machine.KeepsCalm (known : ScopeId → Prop) (m : Machine) : Prop where
  root : known values
  apart : ¬ known macros
  inside : ∀ id, known id → id < m.store.nextId
  binds : m.store.BindsMacros macros
  solid : m.pieces.Solid
  fits : m.store.Fits (.calm known m.pieces)

namespace Machine

variable {known : ScopeId → Prop} {m m' : Machine}

namespace KeepsCalm

theorem of_same (h : m.KeepsCalm known) (store : m'.store = m.store) (pieces : m'.pieces = m.pieces) :
    m'.KeepsCalm known := by
  obtain ⟨root, apart, inside, binds, solid, fits⟩ := h
  rw [← store] at inside binds fits
  rw [← pieces] at solid fits
  exact ⟨root, apart, inside, binds, solid, fits⟩

/-- New scopes and pieces beside the old ones do not matter. -/
theorem extend (h : m.KeepsCalm known) (store : m.store.Extends m'.store)
    (pieces : m.pieces.Extends m'.pieces) (solid : m'.pieces.Solid) : m'.KeepsCalm known := by
  refine ⟨h.root, h.apart, fun id isKnown => ?_, h.binds.extend store, solid, ?_, ?_⟩
  · exact Nat.lt_of_lt_of_le (h.inside id isKnown) store.nextId_le
  · intro id name v isKnown bound
    rw [store.scope_eq id (h.inside id isKnown) not_false] at bound
    exact (h.fits.binding isKnown bound).mono (Value.Limits.calm_le (fun _ h => h) pieces)
  · intro id around isKnown outer
    rw [store.scope_eq id (h.inside id isKnown) not_false] at outer
    exact h.fits.outer isKnown outer

theorem defineMacro (h : m.KeepsCalm known) {d : MacroDefinition}
    (free : ∀ id, ¬ d.body.Refers id) : (m.defineMacro macros d).KeepsCalm known := by
  have same {id : ScopeId} (isKnown : known id) (v : Value) :
      (m.store.bind macros d.name v).scope id = m.store.scope id := by
    rw [Store.scope_bind, if_neg]
    rintro ⟨rfl, -⟩
    exact h.apart isKnown
  refine ⟨h.root, h.apart, fun id isKnown => ?_, h.binds.bind d.name free, h.solid, ?_, ?_⟩
  · change id < (m.store.bind macros d.name _).nextId
    rw [Store.nextId_bind]
    exact h.inside id isKnown
  · intro id name v isKnown bound
    change (name, v) ∈ ((m.store.bind macros d.name _).scope id).bindings at bound
    rw [same isKnown] at bound
    exact h.fits.binding isKnown bound
  · intro id around isKnown outer
    change ((m.store.bind macros d.name _).scope id).outer = some around at outer
    rw [same isKnown] at outer
    exact h.fits.outer isKnown outer

theorem defineMacros (h : m.KeepsCalm known) {definitions : List MacroDefinition}
    (free : ∀ d ∈ definitions, ∀ id, ¬ d.body.Refers id) :
    (definitions.foldl (·.defineMacro macros ·) m).KeepsCalm known := by
  induction definitions generalizing m with
  | nil => exact h
  | cons d definitions ih =>
      exact ih (h.defineMacro (free d (.head _))) fun d mem => free d (.tail _ mem)

end KeepsCalm

/-- A run from a machine that keeps calm has left all pieces as they were, and the machine keeps calm;
scopes stay known, and there is nothing but calm quotations in the result. -/
def EndsCalm (known : ScopeId → Prop) (m : Machine) (r : EStateM.Result Exit Machine Value) : Prop :=
  m.pieces.Extends (finalState r).pieces ∧
    ∃ known', (∀ id, known id → known' id) ∧ (finalState r).KeepsCalm known' ∧
      ∀ v, (∃ m', r = .ok v m' ∨ r = .error (.returned v) m') →
        v.Fits (.calm known' (finalState r).pieces)

/-- The setting in which the quotations in the known scopes are calm. -/
def calm (known : ScopeId → Prop) (m : Machine) : Calm := ⟨known, m.store.nextId, m.pieces, False⟩

theorem calm_limits (m m' : Machine) :
    (m.calm known).setting.limits m' =
      .calm (Allowed known m.store.nextId m'.store.nextId) m'.pieces := by
  simp [Value.Limits.calm, Eval.Setting.limits, calm, Calm.setting]

namespace KeepsCalm

theorem sound (h : m.KeepsCalm known) : (m.calm known).setting.Sound m where
  start_le := Nat.le_refl _
  pieces := ⟨.refl, fun _ => h.solid⟩
  store := by
    rw [calm_limits, Allowed.at_start]
    exact h.fits

/-- A computation that keeps to the setting ends calm if it leaves the scope of macros alone. -/
theorem of_runs (h : m.KeepsCalm known) {c : Nat → Eval Value} {depth : Nat}
    (runs : (m.calm known).setting.Runs (pure depth) m c (m.calm known).setting.Value)
    (same : (finalState ((c depth).run m)).store.scope macros = m.store.scope macros) :
    m.EndsCalm known ((c depth).run m) := by
  have ended := Settles.pure_iff.1 (runs h.sound)
  have moved {m' : Machine} (later : (m.calm known).setting.Later m m')
      (sound : (m.calm known).setting.Sound m')
      (same : m'.store.scope macros = m.store.scope macros) :
      m'.KeepsCalm (Allowed known m.store.nextId m'.store.nextId) := by
    refine ⟨.inl h.root, ?_, fun id allowed => ?_, h.binds.of_same later.nextId_le same,
      sound.pieces.solid id, calm_limits m m' ▸ sound.store⟩
    · rintro (old | ⟨new, -⟩)
      · exact h.apart old
      · exact Nat.not_lt_of_le new h.binds.inside
    · rcases allowed with old | ⟨-, new⟩
      · exact Nat.lt_of_lt_of_le (h.inside id old) later.nextId_le
      · exact new
  cases ran : (c depth).run m with
  | ok v m' =>
      rw [ran] at ended same
      refine ⟨ended.1.moves, _, fun _ => .inl, moved ended.1 ended.2.1 same, ?_⟩
      rintro w ⟨m'', same | same⟩ <;> cases same
      exact calm_limits m m' ▸ ended.2.2
  | error exit m' =>
      rw [ran] at ended same
      refine ⟨ended.1.moves, _, fun _ => .inl, moved ended.1 ended.2.1 same, ?_⟩
      rintro w ⟨m'', same | same⟩ <;> cases same
      exact calm_limits m m' ▸ ended.2.2

/-- An evaluation among the values ends calm. -/
theorem evaluate (h : m.KeepsCalm known) (depth : Nat) {n : Node} {e : ScopeId} (isKnown : known e)
    (code : ∀ id, n.Refers id → id < m.pieces.nextId) :
    m.EndsCalm known ((MonkeyLang.evaluate depth n e).run m) := by
  refine h.of_runs (c := fun i => MonkeyLang.evaluate i n e)
    (Calm.evaluate (C := m.calm known) id depth (.inl isKnown) code) ?_
  exact (evaluate_frame depth n e m).scope_eq macros h.binds.inside
    fun same => h.apart (same ▸ isKnown)

/-- So does a call of values. -/
theorem apply (h : m.KeepsCalm known) (depth : Nat) {f : Value} {vs : List Value}
    (fits : ∀ v ∈ f :: vs, v.Fits (.calm known m.pieces)) :
    m.EndsCalm known ((Eval.apply (MonkeyLang.evaluate depth) f vs).run m) := by
  have fits (v : Value) (mem : v ∈ f :: vs) : (m.calm known).setting.Value m v := by
    unfold Eval.Setting.Value
    rw [calm_limits, Allowed.at_start]
    exact fits v mem
  refine h.of_runs (c := fun i => Eval.apply (MonkeyLang.evaluate i) f vs)
    (.apply (fun body inner m' _ inside code => ?_) (fits f (.head _)) fun v mem => fits v (.tail _ mem)) ?_
  · exact Calm.evaluate (C := m.calm known) id depth inside code.2
  · exact (apply_extends depth f vs m).scope_eq macros h.binds.inside not_false

end KeepsCalm

end Machine

/-! ## Units -/

namespace Session

/-- In a session the quotations among the values are calm, and no piece is changed. Some scopes are
among those of values all the time. -/
def calming (kept : ScopeId → Prop) : Motion Machine where
  Holds m := ∃ known, (∀ id, kept id → known id) ∧ m.KeepsCalm known
  Later m m' := m.pieces.Extends m'.pieces
  refl := .refl
  trans := .trans

variable {kept : ScopeId → Prop} {m : Machine}

theorem calming_remark {r : Remark} :
    (calming kept).Holds m → (calming kept).Holds (m.remark r) :=
  fun ⟨known, more, h⟩ => ⟨known, more, h.of_same rfl rfl⟩

theorem read_keepsCalm (source : Text) :
    (calming kept).Runs m (read source) fun _ program => program.Proper Roles.none .program := by
  unfold read
  dsimp only
  split
  · next accepted =>
    rw [List.isEmpty_iff] at accepted
    refine .pure (Node.fits.proper _ (derives_of_parse ?_).1)
    rw [Parsing.errors, accepted, List.map_nil]
  · have remarks (r : Remark) :
        (calming kept).Runs m (modify (·.remark r) : Expand Unit) fun _ _ => True :=
      .modifyGet .refl calming_remark trivial
    exact (remarks _).bind fun _ _ _ _ => .throw

theorem expandProgram_keepsCalm (limit : Nat) {program : Node}
    (proper : program.Proper Roles.none .program) :
    (calming kept).Runs m (expandProgram limit program) fun m' n =>
      ∀ id, n.Refers id → id < m'.pieces.nextId := by
  have free (d : MacroDefinition)
      (mem : d ∈ program.statements.filterMap MacroDefinition.ofStatement?) (id : PieceId) :
      ¬ d.body.Refers id := by
    obtain ⟨s, mem, isDefinition⟩ := List.mem_filterMap.1 mem
    exact (MacroDefinition.proper_of_ofStatement? (proper.statements s mem) isDefinition).2.not_refers id
  have defined_eq := m.defineMacros_eq macros program
  have left : (m.defineMacros macros program).1.Proper Roles.none .program := by
    rw [defined_eq]
    exact .program fun s mem => proper.statements s (List.mem_filter.1 mem).1
  have defined : (calming kept).Runs m (modifyGet (·.defineMacros macros program) : Expand Node)
      fun _ n => n.Proper Roles.none .program := by
    refine .modifyGet ?_ (fun ⟨known, more, h⟩ => ⟨known, more, ?_⟩) left
    · rw [defined_eq]
      change m.pieces.Extends (Machine.pieces _)
      rw [Machine.pieces_defineMacros]
      exact .refl
    · rw [defined_eq]
      exact h.defineMacros free
  refine defined.bind fun program m₁ _ proper => ?_
  rintro ⟨known, more, h⟩
  have expands := expand_extends_pieces h.solid h.binds proper.not_refers limit
  have holds (m₂ : Machine) (store : m₁.store.Extends m₂.store)
      (pieces : m₁.pieces.Extends m₂.pieces) (solid : m₂.pieces.Solid) : (calming kept).Holds m₂ :=
    ⟨known, more, h.extend store pieces solid⟩
  cases ran : (expand limit macros program).run m₁ with
  | ok n m₂ =>
      rw [ran] at expands
      obtain ⟨store, pieces, solid, inside⟩ := expands
      exact ⟨pieces, holds m₂ store pieces solid, inside n m₂ rfl⟩
  | error refusal m₂ =>
      rw [ran] at expands
      exact ⟨expands.2.1, holds m₂ expands.1 expands.2.1 expands.2.2.1⟩

/-- The quotations in the value of a program are calm. -/
def CalmOutcome (kept : ScopeId → Prop) (m : Machine) (outcome : Outcome) : Prop :=
  ∃ known, (∀ id, kept id → known id) ∧ m.KeepsCalm known ∧
    outcome.toValue.Fits (.calm known m.pieces)

theorem evaluateProgram_keepsCalm (limit : Nat) {program : Node}
    (code : ∀ id, program.Refers id → id < m.pieces.nextId) :
    (calming kept).Runs m (evaluateProgram limit program) (CalmOutcome kept) := by
  rintro ⟨known, more, h⟩
  obtain ⟨old, known', known_known', h', fits⟩ := h.evaluate limit h.root code
  have more' (id : ScopeId) (isKept : kept id) : known' id := known_known' id (more id isKept)
  unfold evaluateProgram
  rw [run_tryCatch, Expand.run_outcome]
  cases ran : (evaluate limit program values).run m with
  | ok v m' =>
      rw [ran] at old h' fits
      exact ⟨old, ⟨known', more', h'⟩, known', more', h', fits v ⟨m', .inl rfl⟩⟩
  | error exit m' =>
      rw [ran] at old h' fits
      cases exit with
      | failed fault => exact ⟨old, ⟨known', more', h'⟩, known', more', h', .bare rfl⟩
      | returned v =>
          exact ⟨old, ⟨known', more', h'⟩, known', more', h', fits v ⟨m', .inr rfl⟩⟩
      | halted halt =>
          cases halt with
          | overflow =>
              have remarked : (m'.remark (.tooDeep limit)).KeepsCalm known' := h'.of_same rfl rfl
              exact ⟨old, ⟨known', more', remarked⟩, known', more', remarked, .bare rfl⟩
          | overlong | unencodable => exact ⟨old, known', more', h'⟩

/-- Every unit keeps the quotations among the values calm. -/
theorem answer_keepsCalm (kept : ScopeId → Prop) (limit : Nat) (source : Text) (m : Machine) :
    (calming kept).Runs m (answer limit source) fun m' a => CalmOutcome kept m' a.outcome := by
  refine (read_keepsCalm source).bind fun program m₁ _ proper => ?_
  refine (expandProgram_keepsCalm limit proper).bind fun expanded m₂ _ code => ?_
  exact (evaluateProgram_keepsCalm limit code).bind fun outcome m₃ _ calm => .pure calm

theorem keepsCalm_machine₀ : machine₀.KeepsCalm (· = values) where
  root := rfl
  apart := by decide
  inside id same := by
    subst same
    decide
  binds := ⟨by decide, rfl, fun _ _ bound => nomatch bound⟩
  solid := fun id inside => absurd inside (Nat.not_lt_zero id)
  fits := by
    constructor
    · intro id name v same bound
      cases same
      cases bound
    · intro id around same outer
      cases same
      cases outer

theorem Reached.keepsCalm {s : Session} (h : s.Reached) : ∃ known, s.machine.KeepsCalm known :=
  have ⟨known, _, keeps⟩ := h.invariant (calming fun _ => False).Holds
    ⟨_, nofun, keepsCalm_machine₀⟩ (fun _ _ => calming_remark)
    fun limit source m holds => ((answer_keepsCalm _ limit source m).finalState holds).2
  ⟨known, keeps⟩

end Session

/-! ## Results -/

/-- With all pieces in their places, the tree has an end, and there is no call of `unquote` in it. -/
def Pieces.Unquoted (p : Pieces) (n : Node) : Prop :=
  ∃ whole, p.whole? n = some whole ∧
    whole.Everywhere fun n => n.isPiece = false ∧ n.unquotes? = none

/-- From the place no quotation can be reached that has a call of `unquote` in it. -/
def Machine.QuotesUnquoted (m : Machine) (p : Place) : Prop :=
  ∀ serial node, m.store.Reaches p (.value (.quote serial node)) → m.pieces.Unquoted node

theorem Pieces.Tree.unquoted {p : Pieces} {n : Node} (h : p.Tree (Node.Calm False) n) :
    p.Unquoted n := by
  have tree := (h.mono fun n calm => calm.other).other
  refine tree.exists_whole fun n ns _ ⟨other, holds⟩ heads => ⟨?_, ?_⟩
  · rw [Node.isPiece_withChildren, other]
  · exact Node.unquotes?_withChildren holds heads

theorem Machine.KeepsCalm.quotesUnquoted {known : ScopeId → Prop} {m : Machine}
    (h : m.KeepsCalm known) {p : Place} (fits : p.Fits (.calm known m.pieces)) :
    m.QuotesUnquoted p := by
  intro serial node steps
  have there : (Value.quote serial node).Fits (.calm known m.pieces) := h.fits.reaches fits steps
  exact (Value.Fits.quote_iff.1 there).unquoted

theorem Session.run_quotesUnquoted {s : Session} {known : ScopeId → Prop}
    (h : s.machine.KeepsCalm known) {source : Text} {answer : Answer}
    (answered : (s.run source).1 = .ok answer) :
    (s.run source).2.machine.QuotesUnquoted (.value answer.outcome.toValue) := by
  have ended := answer_keepsCalm known s.limit source s.machine ⟨known, fun _ => id, h⟩
  unfold Session.run perform at answered ⊢
  cases ran : (Session.answer s.limit source).run s.machine with
  | ok a m' =>
      rw [ran] at ended answered
      cases answered
      obtain ⟨known', -, h', fits⟩ := ended.2.2
      exact h'.quotesUnquoted fits
  | error refusal m' =>
      rw [ran] at answered
      cases answered

/-- In every session, no quotation that can be reached from the outermost scope of values has a call
of `unquote` in it, however the tree has been put together; and none that can be reached from the value
of a unit has. -/
theorem session_quotations_unquoted {s : Session} (reached : s.Reached) :
    s.machine.QuotesUnquoted (.scope values) ∧
      ∀ source,
        (∀ answer, (s.run source).1 = .ok answer →
          (s.run source).2.machine.QuotesUnquoted (.value answer.outcome.toValue)) ∧
        ∀ outcome, (s.eval source).1 = .ok outcome →
          (s.eval source).2.machine.QuotesUnquoted (.value outcome.toValue) := by
  obtain ⟨known, h⟩ := reached.keepsCalm
  refine ⟨h.quotesUnquoted h.root, fun source => ⟨fun answer answered => ?_, fun outcome ended => ?_⟩⟩
  · exact Session.run_quotesUnquoted h answered
  · have kept : (s.remark (.evaluating source.length)).machine.KeepsCalm known := h.of_same rfl rfl
    have answer_eq : (s.eval source).1 =
        ((s.remark (.evaluating source.length)).run source).1.map Answer.outcome := rfl
    rw [answer_eq] at ended
    cases ran : ((s.remark (.evaluating source.length)).run source).1 with
    | ok answer =>
        rw [ran] at ended
        cases ended
        exact Session.run_quotesUnquoted kept ran
    | error refusal =>
        rw [ran] at ended
        cases ended

/-- A macro quotes its argument, a call of `unquote`, into a program that quotes it again. -/
theorem session_with_spliced_unquote_unquoted :
    let s := ((Session.start 0).run "let m = macro(x) \x7b quote(quote(unquote(x))) \x7d;").2
    let t := (s.run "let q = m(unquote(1 + 2));").2
    t.Reached ∧ (t.value? "q").map Value.kind = some .quote ∧
      t.machine.QuotesUnquoted (.scope values) := by
  intro s t
  have reached : t.Reached := .run _ (.run _ (.start 0))
  exact ⟨reached, by decide +kernel, (session_quotations_unquoted reached).1⟩

end MonkeyLang
