import MonkeyLang.Proofs.Parser.Honest
import Mathlib.Logic.Relation

/-!
# Parsers step by step

All that a parser does to its cursor is to read tokens and to report mistakes, and a mistake is
reported either at the token that comes next or at the one that has just been read. So every run is a
path of three kinds of steps, however deep the construct is in which it reports and however many
constructs break off behind a report.

* `Cursor.Step` is a step, `Cursor.Path` any number of them.
* `Mistake.NoticedAt` says of a mistake that a token is the one it is about.
* `Stepwise.program`: the parser of programs runs along a path, as does every construct before it.
* `Cursor.Path.keeps`: what every step keeps, a run keeps.
-/

namespace MonkeyLang

open MonkeyLang.Parser

/-- The token is the one that the mistake is about: it is not of the kind that is wanted, no operand
starts with it, or it is an integer with too many digits. -/
def Mistake.NoticedAt (token : Token) : Mistake → Prop
  | unexpected wanted got => token.kind = got ∧ got ≠ wanted
  | noOperand got => token.kind = got ∧ ∀ expr, operand? expr token = none
  | overlong literal =>
    token.kind = .int ∧ token.literal = literal ∧ Decimal.longest < literal.length

namespace Parser

variable {α β : Type}

/-! ## Steps -/

/-- The cursor with a report more. -/
def Cursor.reporting (k : Cursor) (mistake : Mistake) (token : Token) : Cursor :=
  { k with reported := ⟨mistake, token.pos⟩ :: k.reported }

/-- One step of a parser. -/
inductive Cursor.Step : Cursor → Cursor → Prop
  /-- Read a token. -/
  | read (k : Cursor) : Step k k.advanced
  /-- Report the next token without reading it. -/
  | refuse {k : Cursor} {mistake : Mistake} :
    mistake.NoticedAt k.tokens.peek → Step k (k.reporting mistake k.tokens.peek)
  /-- Read a token and report it. -/
  | misread {k : Cursor} {mistake : Mistake} :
    mistake.NoticedAt k.tokens.peek → Step k (k.advanced.reporting mistake k.tokens.peek)

/-- Any number of steps. -/
abbrev Cursor.Path : Cursor → Cursor → Prop := Relation.ReflTransGen Cursor.Step

theorem Cursor.Path.keeps {I : Cursor → Prop} (step : ∀ k k', k.Step k' → I k → I k')
    {k k' : Cursor} (path : k.Path k') (start : I k) : I k' := by
  induction path with
  | refl => exact start
  | tail _ last ih => exact step _ _ last ih

/-! ## Runs -/

/-- Every run of the parser is a path. -/
class Stepwise (c : Parse α) : Prop where
  path : ∀ k : Cursor, k.Path (result c k).2

/-- Every run of the parser is a path together with the reading of the token before it. -/
class StepwiseBehind (token : Token) (c : Parse α) : Prop where
  path : ∀ k : Cursor, k.tokens.peek = token → k.Path (result c k.advanced).2

namespace Stepwise

theorem of_still {c : Parse α} (still : ∀ k, (result c k).2 = k) : Stepwise c :=
  ⟨fun k => by rw [still]⟩

instance pure (a : α) : Stepwise (Pure.pure a : Parse α) := of_still fun _ => rfl

instance bind {c : Parse α} {next : α → Parse β} [first : Stepwise c]
    [then_ : ∀ a, Stepwise (next a)] : Stepwise (c >>= next) := by
  refine ⟨fun k => ?_⟩
  have start := first.path k
  rw [result_bind]
  generalize result c k = r at start ⊢
  obtain ⟨_ | a, k₁⟩ := r
  · exact start
  · exact start.trans ((then_ a).path k₁)

theorem seq {c : Parse α} {next : α → Parse β} (first : Stepwise c)
    (then_ : ∀ a, Stepwise (next a)) : Stepwise (c >>= next) :=
  bind

instance ite {b : Prop} [Decidable b] {c d : Parse α} [yes : Stepwise c] [no : Stepwise d] :
    Stepwise (if b then c else d) := by
  split
  · exact yes
  · exact no

instance peek : Stepwise Parser.peek := of_still fun _ => rfl

instance ahead : Stepwise Parser.ahead := of_still fun _ => rfl

instance advance : Stepwise Parser.advance := ⟨fun k => .single (.read k)⟩

instance expect (kind : Token.Kind) : Stepwise (expect kind) := by
  refine ⟨fun k => ?_⟩
  rw [result_expect]
  split
  · exact .single (.read k)
  · next other =>
    have noticed : (Mistake.unexpected kind k.tokens.peek.kind).NoticedAt k.tokens.peek :=
      ⟨rfl, other⟩
    exact .single (.refuse noticed)

instance accept (kind : Token.Kind) : Stepwise (accept kind) := by
  refine ⟨fun k => ?_⟩
  rw [result_accept]
  split
  · exact .single (.read k)
  · exact .refl

instance nextIs (kind : Token.Kind) : Stepwise (nextIs kind) := by
  unfold Parser.nextIs
  infer_instance

theorem snd_result_orMissing (c : Parse Node) (k : Cursor) :
    (result (Parser.orMissing c) k).2 = (result c k).2 := by
  rw [result_orMissing]
  generalize result c k = r
  obtain ⟨_ | a, k₁⟩ := r <;> rfl

instance orMissing {c : Parse Node} [h : Stepwise c] : Stepwise (orMissing c) :=
  ⟨fun k => by rw [snd_result_orMissing]; exact h.path k⟩

instance optional {c : Parse α} [h : Stepwise c] : Stepwise (optional c) := by
  refine ⟨fun k => ?_⟩
  have path := h.path k
  rw [result_optional]
  generalize result c k = r at path ⊢
  obtain ⟨_ | a, k₁⟩ := r <;> exact path

/-! ### Lists -/

instance afterCommas {item : Parse α} [Stepwise item] (n : Nat) :
    Stepwise (afterCommas item n) := by
  induction n with
  | zero => exact pure _
  | succ n ih =>
      unfold Parser.afterCommas
      infer_instance

instance separated {item : Parse α} [Stepwise item] : Stepwise (separated item) := by
  unfold Parser.separated
  infer_instance

instance listUntil {item : Parse α} [Stepwise item] (close : Token.Kind) :
    Stepwise (listUntil item close) := by
  unfold Parser.listUntil
  infer_instance

instance statementsWhile {statement : Parse Node} (more : Token.Kind → Bool) [Stepwise statement]
    (n : Nat) : Stepwise (statementsWhile more statement n) := by
  induction n with
  | zero => exact pure _
  | succ n ih =>
      unfold Parser.statementsWhile
      infer_instance

/-! ### Constructs over a reader of expressions -/

section Constructs

variable {expr : Level → Parse Node} [∀ level, Stepwise (expr level)]

instance letStatement : Stepwise (letStatement expr) := by
  unfold Parser.letStatement
  infer_instance

instance returnStatement : Stepwise (returnStatement expr) := by
  unfold Parser.returnStatement
  infer_instance

instance expressionStatement : Stepwise (expressionStatement expr) := by
  unfold Parser.expressionStatement
  infer_instance

instance statement : Stepwise (statement expr) := by
  refine seq inferInstance fun token => ?_
  split <;> infer_instance

instance block : Stepwise (block expr) := by
  unfold Parser.block
  infer_instance

instance unary (token : Token) : Stepwise (unary expr token) := by
  unfold Parser.unary
  infer_instance

instance grouped : Stepwise (grouped expr) := by
  unfold Parser.grouped
  infer_instance

instance conditional (token : Token) : Stepwise (conditional expr token) := by
  unfold Parser.conditional
  infer_instance

instance parameter : Stepwise Parser.parameter := by
  unfold Parser.parameter
  infer_instance

instance parametersAndBody : Stepwise (parametersAndBody expr) := by
  unfold Parser.parametersAndBody
  infer_instance

instance pairs (n : Nat) : Stepwise (pairs expr n) := by
  induction n with
  | zero => exact pure _
  | succ n ih =>
      refine seq inferInstance fun closed => ?_
      split
      · exact pure _
      · refine seq inferInstance fun key => seq inferInstance fun _ => ?_
        refine seq inferInstance fun value => seq inferInstance fun last => ?_
        dsimp only
        infer_instance

instance extend (token : Token) (left : Node) : Stepwise (extend expr token left) := by
  unfold Parser.extend
  split <;> infer_instance

instance climb (level : Level) (n : Nat) (left : Node) : Stepwise (climb expr level n left) := by
  induction n generalizing left with
  | zero => exact pure _
  | succ n ih =>
      unfold Parser.climb
      infer_instance

end Constructs

end Stepwise

/-! ### Behind a token -/

namespace StepwiseBehind

variable {token : Token}

instance of_stepwise {c : Parse α} [h : Stepwise c] : StepwiseBehind token c :=
  ⟨fun k _ => .head (.read k) (h.path k.advanced)⟩

instance bind {c : Parse α} {next : α → Parse β} [first : StepwiseBehind token c]
    [then_ : ∀ a, Stepwise (next a)] : StepwiseBehind token (c >>= next) := by
  refine ⟨fun k is => ?_⟩
  have start := first.path k is
  rw [result_bind]
  generalize result c k.advanced = r at start ⊢
  obtain ⟨_ | a, k₁⟩ := r
  · exact start
  · exact start.trans ((then_ a).path k₁)

theorem seq {c : Parse α} {next : α → Parse β} (first : StepwiseBehind token c)
    (then_ : ∀ a, Stepwise (next a)) : StepwiseBehind token (c >>= next) :=
  bind

instance orMissing {c : Parse Node} [h : StepwiseBehind token c] :
    StepwiseBehind token (orMissing c) :=
  ⟨fun k is => by rw [Stepwise.snd_result_orMissing]; exact h.path k is⟩

theorem report {mistake : Mistake} (noticed : mistake.NoticedAt token) :
    StepwiseBehind token (report mistake token) := by
  refine ⟨fun k is => ?_⟩
  subst is
  exact .single (.misread noticed)

theorem integer (int : token.kind = .int) : StepwiseBehind token (integer token) := by
  unfold Parser.integer
  split
  · next long => exact seq (report ⟨int, rfl, long⟩) fun _ => inferInstance
  · infer_instance

theorem operand {expr : Level → Parse Node} [∀ level, Stepwise (expr level)] {c : Parse Node}
    (found : operand? expr token = some c) : StepwiseBehind token c := by
  unfold operand? at found
  split at found <;> cases found
  -- An integer may have to be reported when it has been read; the others read on first.
  case h_2 int => exact integer int
  all_goals infer_instance

end StepwiseBehind

/-- Whether an operand starts with a token does not depend on the expressions inside. -/
theorem operand?_eq_none {expr expr' : Level → Parse Node} {token : Token}
    (none : operand? expr token = none) : operand? expr' token = .none := by
  unfold operand? at none ⊢
  split at none <;> cases none
  rfl

theorem Stepwise.of_behind {next : Token → Parse α}
    (behind : ∀ token, StepwiseBehind token (next token)) : Stepwise (Parser.advance >>= next) :=
  ⟨fun k => (behind k.tokens.peek).path k rfl⟩

instance Stepwise.expression (depth : Nat) (level : Level) : Stepwise (expression depth level) := by
  induction depth generalizing level with
  | zero => exact pure _
  | succ depth ih =>
      refine of_behind fun token => ?_
      split
      · next none =>
        exact .seq (.report ⟨rfl, fun _ => operand?_eq_none none⟩) fun _ => inferInstance
      · next found =>
        have := StepwiseBehind.operand found
        infer_instance

instance Stepwise.program : Stepwise program := by
  unfold Parser.program
  infer_instance

end Parser

end MonkeyLang
