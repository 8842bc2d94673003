import MonkeyLang.Parser

/-!
# Runs of parsers

A parser reports its mistakes and goes on, so a run tells by its reports only whether the text was
in order. What makes this work is that no parser takes a report or a token back, and none breaks off
in silence. This is `Honest`, and all parsers are.

* `result_bind`, `result_orMissing`, `result_optional`, ...: the equations of `result c k`, what
  the parser `c` yields at the cursor `k` and where it leaves off.
* `Honest.program`: the parser of programs is honest, as is every construct before it.
-/

namespace MonkeyLang

namespace Parser

variable {α β : Type}

/-! ## Runs -/

/-- What a parser yields and where it leaves off. -/
def result (c : Parse α) (k : Cursor) : Option α × Cursor := (OptionT.run c).run k

theorem result_bind (c : Parse α) (next : α → Parse β) (k : Cursor) :
    result (c >>= next) k =
      match result c k with
      | (some a, k') => result (next a) k'
      | (none, k') => (none, k') := by
  simp only [result, OptionT.run_bind, Option.elimM, StateT.run_bind]
  change (fun r : Option α × Cursor => StateT.run _ r.2) (StateT.run (OptionT.run c) k) = _
  rcases StateT.run (OptionT.run c) k with ⟨_ | a, k'⟩ <;> rfl

theorem result_orElse (c d : Parse α) (k : Cursor) :
    result (c <|> d) k =
      match result c k with
      | (some a, k') => (some a, k')
      | (none, k') => result d k' := by
  simp only [result, OptionT.run_orElse, Option.elimM, StateT.run_bind]
  change (fun r : Option α × Cursor => StateT.run _ r.2) (StateT.run (OptionT.run c) k) = _
  rcases StateT.run (OptionT.run c) k with ⟨_ | a, k'⟩ <;> rfl

theorem result_orMissing (c : Parse Node) (k : Cursor) :
    result (orMissing c) k =
      match result c k with
      | (some a, k') => (some a, k')
      | (none, k') => (some .missing, k') := by
  unfold orMissing
  rw [result_orElse]
  rcases result c k with ⟨_ | a, k'⟩ <;> rfl

theorem result_optional (c : Parse α) (k : Cursor) :
    result (optional c) k =
      match result c k with
      | (some a, k') => (some (some a), k')
      | (none, k') => (some none, k') := by
  unfold optional
  rw [result_orElse, map_eq_pure_bind, result_bind]
  rcases result c k with ⟨_ | a, k'⟩ <;> rfl

/-- The cursor behind the next token. -/
def Cursor.advanced (k : Cursor) : Cursor := { k with tokens := k.tokens.tail }

theorem result_expect (kind : Token.Kind) (k : Cursor) :
    result (expect kind) k =
      if k.tokens.peek.kind = kind then (some k.tokens.peek, k.advanced)
      else (none, ⟨k.tokens,
        ⟨.unexpected kind k.tokens.peek.kind, k.tokens.peek.pos⟩ :: k.reported⟩) := by
  unfold expect
  rw [result_bind]
  change result (if k.tokens.peek.kind = kind then advance else _) k = _
  split <;> rfl

theorem result_accept (kind : Token.Kind) (k : Cursor) :
    result (accept kind) k =
      if k.tokens.peek.kind = kind then (some true, k.advanced) else (some false, k) := by
  unfold accept nextIs
  rw [result_bind]
  change result (if (k.tokens.peek.kind == kind) = true then _ else _) k = _
  by_cases h : k.tokens.peek.kind = kind
  · rw [if_pos h, if_pos (beq_iff_eq.2 h)]
    rfl
  · rw [if_neg h, if_neg (mt beq_iff_eq.1 h)]
    rfl

/-! ## Honest parsers -/

/-- The end marker is the same, no token has been put back, and no report has been taken back. -/
structure Cursor.Later (k k' : Cursor) : Prop where
  marker : k'.tokens.final = k.tokens.final
  unread : k'.tokens.unread <:+ k.tokens.unread
  reported : k.reported.length ≤ k'.reported.length

theorem Cursor.Later.refl (k : Cursor) : k.Later k := ⟨rfl, List.suffix_refl _, Nat.le_refl _⟩

theorem Cursor.Later.trans {k₁ k₂ k₃ : Cursor} (h : k₁.Later k₂) (h' : k₂.Later k₃) :
    k₁.Later k₃ :=
  ⟨h'.marker.trans h.marker, h'.unread.trans h.unread, Nat.le_trans h.reported h'.reported⟩

/-- The parser takes nothing back, and it reports something if it breaks off. -/
class Honest (c : Parse α) : Prop where
  later : ∀ k : Cursor, k.Later (result c k).2
  broken : ∀ k, (result c k).1 = none → k.reported.length < (result c k).2.reported.length

namespace Honest

theorem of_some {c : Parse α} (h : ∀ k, ∃ a, (result c k).1 = some a)
    (later : ∀ k : Cursor, k.Later (result c k).2) : Honest c where
  later := later
  broken k none := by
    obtain ⟨a, some⟩ := h k
    rw [some] at none
    cases none

instance pure (a : α) : Honest (Pure.pure a : Parse α) :=
  of_some (fun _ => ⟨a, rfl⟩) .refl

instance bind {c : Parse α} {next : α → Parse β} [first : Honest c]
    [then_ : ∀ a, Honest (next a)] : Honest (c >>= next) := by
  constructor <;> intro k
  all_goals
    have start := first.later k
    have broken := first.broken k
    rw [result_bind]
    rcases hc : result c k with ⟨_ | a, k₁⟩
    all_goals rw [hc] at start broken
  · exact start
  · exact start.trans ((then_ a).later k₁)
  · exact fun _ => broken rfl
  · exact fun none => Nat.lt_of_le_of_lt start.reported ((then_ a).broken k₁ none)

theorem seq {c : Parse α} {next : α → Parse β} (first : Honest c)
    (then_ : ∀ a, Honest (next a)) : Honest (c >>= next) :=
  bind

instance ite {b : Prop} [Decidable b] {c d : Parse α} [yes : Honest c] [no : Honest d] :
    Honest (if b then c else d) := by
  split
  · exact yes
  · exact no

instance peek : Honest Parser.peek := of_some (fun _ => ⟨_, rfl⟩) .refl

instance ahead : Honest Parser.ahead := of_some (fun _ => ⟨_, rfl⟩) .refl

theorem later_advanced (k : Cursor) : k.Later k.advanced :=
  ⟨rfl, List.tail_suffix _, Nat.le_refl _⟩

instance advance : Honest Parser.advance := of_some (fun _ => ⟨_, rfl⟩) later_advanced

instance report (mistake : Mistake) (token : Token) : Honest (report mistake token) :=
  of_some (fun _ => ⟨_, rfl⟩) fun _ => ⟨rfl, List.suffix_refl _, Nat.le_succ _⟩

instance expect (kind : Token.Kind) : Honest (expect kind) := by
  constructor <;> intro k <;> rw [result_expect] <;> split
  · exact later_advanced k
  · exact ⟨rfl, List.suffix_refl _, Nat.le_succ _⟩
  · exact nofun
  · exact fun _ => Nat.lt_succ_self _

instance accept (kind : Token.Kind) : Honest (accept kind) :=
  of_some (fun k => by rw [result_accept]; split <;> exact ⟨_, rfl⟩)
    fun k => by
      rw [result_accept]
      split
      · exact later_advanced k
      · exact .refl k

instance nextIs (kind : Token.Kind) : Honest (nextIs kind) := by
  unfold Parser.nextIs
  infer_instance

instance orMissing {c : Parse Node} [h : Honest c] : Honest (orMissing c) := by
  refine of_some (fun k => ?_) fun k => ?_
  all_goals
    have start := h.later k
    rw [result_orMissing]
    rcases hc : result c k with ⟨_ | a, k₁⟩
    all_goals rw [hc] at start
  · exact ⟨_, rfl⟩
  · exact ⟨_, rfl⟩
  · exact start
  · exact start

instance optional {c : Parse α} [h : Honest c] : Honest (optional c) := by
  refine of_some (fun k => ?_) fun k => ?_
  all_goals
    have start := h.later k
    rw [result_optional]
    rcases hc : result c k with ⟨_ | a, k₁⟩
    all_goals rw [hc] at start
  · exact ⟨_, rfl⟩
  · exact ⟨_, rfl⟩
  · exact start
  · exact start

/-! ### Lists -/

instance afterCommas {item : Parse α} [Honest item] (n : Nat) : Honest (afterCommas item n) := by
  induction n with
  | zero => exact pure _
  | succ n ih =>
      unfold Parser.afterCommas
      infer_instance

instance separated {item : Parse α} [Honest item] : Honest (separated item) := by
  unfold Parser.separated
  infer_instance

instance listUntil {item : Parse α} [Honest item] (close : Token.Kind) :
    Honest (listUntil item close) := by
  unfold Parser.listUntil
  infer_instance

instance statementsWhile {statement : Parse Node} (more : Token.Kind → Bool) [Honest statement]
    (n : Nat) : Honest (statementsWhile more statement n) := by
  induction n with
  | zero => exact pure _
  | succ n ih =>
      unfold Parser.statementsWhile
      infer_instance

/-! ### Constructs over a reader of expressions -/

section Constructs

variable {expr : Level → Parse Node} [∀ level, Honest (expr level)]

instance letStatement : Honest (letStatement expr) := by
  unfold Parser.letStatement
  infer_instance

instance returnStatement : Honest (returnStatement expr) := by
  unfold Parser.returnStatement
  infer_instance

instance expressionStatement : Honest (expressionStatement expr) := by
  unfold Parser.expressionStatement
  infer_instance

instance statement : Honest (statement expr) := by
  refine seq inferInstance fun token => ?_
  split <;> infer_instance

instance block : Honest (block expr) := by
  unfold Parser.block
  infer_instance

instance integer (token : Token) : Honest (integer token) := by
  unfold Parser.integer
  infer_instance

instance unary (token : Token) : Honest (unary expr token) := by
  unfold Parser.unary
  infer_instance

instance grouped : Honest (grouped expr) := by
  unfold Parser.grouped
  infer_instance

instance conditional (token : Token) : Honest (conditional expr token) := by
  unfold Parser.conditional
  infer_instance

instance parameter : Honest Parser.parameter := by
  unfold Parser.parameter
  infer_instance

instance parametersAndBody : Honest (parametersAndBody expr) := by
  unfold Parser.parametersAndBody
  infer_instance

instance pairs (n : Nat) : Honest (pairs expr n) := by
  induction n with
  | zero => exact pure _
  | succ n ih =>
      refine seq inferInstance fun closed => ?_
      split
      · exact pure _
      · refine seq inferInstance fun key => seq inferInstance fun _ => ?_
        refine seq inferInstance fun value => seq inferInstance fun last => ?_
        dsimp only
        infer_instance

theorem operand {token : Token} {c : Parse Node} (found : operand? expr token = some c) :
    Honest c := by
  unfold operand? at found
  split at found <;> cases found
  all_goals infer_instance

instance extend (token : Token) (left : Node) : Honest (extend expr token left) := by
  unfold Parser.extend
  split <;> infer_instance

instance climb (level : Level) (n : Nat) (left : Node) : Honest (climb expr level n left) := by
  induction n generalizing left with
  | zero => exact pure _
  | succ n ih =>
      unfold Parser.climb
      infer_instance

end Constructs

instance expression (depth : Nat) (level : Level) : Honest (expression depth level) := by
  induction depth generalizing level with
  | zero => exact pure _
  | succ depth ih =>
      refine seq inferInstance fun token => ?_
      split
      · infer_instance
      · next found =>
          have := operand found
          infer_instance

instance program : Honest program := by
  unfold Parser.program
  infer_instance

end Honest

end Parser

end MonkeyLang
