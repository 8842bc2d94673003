import MonkeyLang.Proofs.Parser.Honest

/-!
# Bounds that are never reached

The descent into expressions and the loops of the parser go by bounds, which are numbers of tokens.
What stands at a bound does not matter: a descent and a turn of a loop each take a token before the
next one begins, unless the end marker stops them.

* `SameBelow n`: two readings are the same wherever fewer than `n` tokens are left. All constructs
  keep this of the reader of expressions in them.
* `Terminates`: a recursion takes a token in each turn, and its bounds are never reached.
* `parser_ends`: the descent and all loops are of this kind, so that every stream of tokens is read
  up to its end marker.
-/

namespace MonkeyLang

namespace Parser

variable {α β : Type} {n : Nat}

/-! ## Readings that differ only where more is left -/

/-- The readings are the same from every place with fewer than `n` tokens before the end marker. -/
class SameBelow (n : Nat) (c c' : Parse α) : Prop where
  same : ∀ k : Cursor, k.tokens.final.kind = .eof → k.tokens.unread.length < n →
    result c k = result c' k

namespace SameBelow

theorem refl (c : Parse α) : SameBelow n c c := ⟨fun _ _ _ => rfl⟩

theorem symm {c c' : Parse α} (h : SameBelow n c c') : SameBelow n c' c :=
  ⟨fun k ends short => (h.same k ends short).symm⟩

theorem trans {c c' c'' : Parse α} (h : SameBelow n c c') (h' : SameBelow n c' c'') :
    SameBelow n c c'' :=
  ⟨fun k ends short => (h.same k ends short).trans (h'.same k ends short)⟩

theorem of_le {m : Nat} {c c' : Parse α} (h : SameBelow n c c') (le : m ≤ n) : SameBelow m c c' :=
  ⟨fun k ends short => h.same k ends (Nat.lt_of_lt_of_le short le)⟩

theorem below_zero (c c' : Parse α) : SameBelow 0 c c' :=
  ⟨fun _ _ short => absurd short (Nat.not_lt_zero _)⟩

instance pure (a : α) : SameBelow n (Pure.pure a : Parse α) (Pure.pure a) := refl _

/-- What is read behind an honest parser is read where no more is left. -/
instance bind {c c' : Parse α} {next next' : α → Parse β} [honest : Honest c]
    [first : SameBelow n c c'] [then_ : ∀ a, SameBelow n (next a) (next' a)] :
    SameBelow n (c >>= next) (c' >>= next') := by
  refine ⟨fun k ends short => ?_⟩
  have later := honest.later k
  rw [result_bind, result_bind, ← first.same k ends short]
  generalize result c k = r at later ⊢
  obtain ⟨_ | a, k₁⟩ := r
  · rfl
  · exact (then_ a).same k₁ (later.marker ▸ ends)
      (Nat.lt_of_le_of_lt later.unread.length_le short)

theorem seq {c c' : Parse α} {next next' : α → Parse β} [Honest c] (first : SameBelow n c c')
    (then_ : ∀ a, SameBelow n (next a) (next' a)) : SameBelow n (c >>= next) (c' >>= next') :=
  bind

instance ite {b : Prop} [Decidable b] {c c' d d' : Parse α} [yes : SameBelow n c c']
    [no : SameBelow n d d'] : SameBelow n (if b then c else d) (if b then c' else d') := by
  split
  · exact yes
  · exact no

instance peek : SameBelow n Parser.peek Parser.peek := refl _

instance ahead : SameBelow n Parser.ahead Parser.ahead := refl _

instance advance : SameBelow n Parser.advance Parser.advance := refl _

instance report (mistake : Mistake) (token : Token) :
    SameBelow n (report mistake token) (report mistake token) := refl _

instance expect (kind : Token.Kind) : SameBelow n (expect kind) (expect kind) := refl _

instance accept (kind : Token.Kind) : SameBelow n (accept kind) (accept kind) := refl _

instance nextIs (kind : Token.Kind) : SameBelow n (nextIs kind) (nextIs kind) := refl _

instance orMissing {c c' : Parse Node} [h : SameBelow n c c'] :
    SameBelow n (orMissing c) (orMissing c') :=
  ⟨fun k ends short => by rw [result_orMissing, result_orMissing, h.same k ends short]⟩

instance optional {c c' : Parse α} [h : SameBelow n c c'] :
    SameBelow n (optional c) (optional c') :=
  ⟨fun k ends short => by rw [result_optional, result_optional, h.same k ends short]⟩

/-! ### Lists -/

instance afterCommas {item item' : Parse α} [Honest item] [SameBelow n item item'] (bound : Nat) :
    SameBelow n (afterCommas item bound) (afterCommas item' bound) := by
  induction bound with
  | zero => exact pure _
  | succ bound ih =>
      unfold Parser.afterCommas
      infer_instance

instance separated {item item' : Parse α} [Honest item] [SameBelow n item item'] :
    SameBelow n (separated item) (separated item') := by
  unfold Parser.separated
  infer_instance

instance listUntil {item item' : Parse α} [Honest item] [SameBelow n item item']
    (close : Token.Kind) : SameBelow n (listUntil item close) (listUntil item' close) := by
  unfold Parser.listUntil
  infer_instance

instance statementsWhile {statement statement' : Parse Node} (more : Token.Kind → Bool)
    [Honest statement] [SameBelow n statement statement'] (bound : Nat) :
    SameBelow n (statementsWhile more statement bound)
      (statementsWhile more statement' bound) := by
  induction bound with
  | zero => exact pure _
  | succ bound ih =>
      unfold Parser.statementsWhile
      infer_instance

/-! ### Constructs over a reader of expressions -/

section Constructs

variable {expr expr' : Level → Parse Node} [∀ level, Honest (expr level)]
  [∀ level, SameBelow n (expr level) (expr' level)]

instance letStatement : SameBelow n (letStatement expr) (letStatement expr') := by
  unfold Parser.letStatement
  infer_instance

instance returnStatement : SameBelow n (returnStatement expr) (returnStatement expr') := by
  unfold Parser.returnStatement
  infer_instance

instance expressionStatement :
    SameBelow n (expressionStatement expr) (expressionStatement expr') := by
  unfold Parser.expressionStatement
  infer_instance

instance statement : SameBelow n (statement expr) (statement expr') := by
  refine seq inferInstance fun token => ?_
  split <;> infer_instance

instance block : SameBelow n (block expr) (block expr') := by
  unfold Parser.block
  infer_instance

instance integer (token : Token) : SameBelow n (integer token) (integer token) := refl _

instance unary (token : Token) : SameBelow n (unary expr token) (unary expr' token) := by
  unfold Parser.unary
  infer_instance

instance grouped : SameBelow n (grouped expr) (grouped expr') := by
  unfold Parser.grouped
  infer_instance

instance conditional (token : Token) :
    SameBelow n (conditional expr token) (conditional expr' token) := by
  unfold Parser.conditional
  exact seq inferInstance fun _ => inferInstance

instance parameter : SameBelow n parameter parameter := refl _

instance parametersAndBody :
    SameBelow n (parametersAndBody expr) (parametersAndBody expr') := by
  unfold Parser.parametersAndBody
  infer_instance

instance pairs (bound : Nat) : SameBelow n (pairs expr bound) (pairs expr' bound) := by
  induction bound with
  | zero => exact pure _
  | succ bound ih =>
      refine seq inferInstance fun closed => ?_
      split
      · exact pure _
      · refine seq inferInstance fun key => seq inferInstance fun _ => ?_
        refine seq inferInstance fun value => seq inferInstance fun last => ?_
        dsimp only
        infer_instance

theorem operand (token : Token) :
    Option.Rel (SameBelow n) (operand? expr token) (operand? expr' token) := by
  unfold operand?
  split
  case h_14 => exact .none
  all_goals exact .some inferInstance

instance extend (token : Token) (left : Node) :
    SameBelow n (extend expr token left) (extend expr' token left) := by
  unfold Parser.extend
  split <;> infer_instance

instance climb (level : Level) (bound : Nat) (left : Node) :
    SameBelow n (climb expr level bound left) (climb expr' level bound left) := by
  induction bound generalizing left with
  | zero => exact pure _
  | succ bound ih =>
      unfold Parser.climb
      infer_instance

end Constructs

end SameBelow

/-! ## Parsers that take a token -/

section

variable {k : Cursor}

/-- Before a token that is no end marker there is one to be taken. -/
theorem Cursor.unread_ne_nil (ends : k.tokens.final.kind = .eof)
    (more : k.tokens.peek.kind ≠ .eof) : k.tokens.unread ≠ [] := by
  intro nil
  rw [TokenStream.peek, nil] at more
  exact more ends

theorem Cursor.advanced_lt (more : k.tokens.unread ≠ []) :
    k.advanced.tokens.unread.length < k.tokens.unread.length := by
  have tail : k.advanced.tokens.unread.length = k.tokens.unread.length - 1 := List.length_tail
  have taken := List.length_pos_iff.2 more
  omega

end

/-- The parser takes a token if there is one before the end marker. -/
class Takes (c : Parse α) : Prop where
  takes : ∀ k : Cursor, k.tokens.unread ≠ [] →
    (result c k).2.tokens.unread.length < k.tokens.unread.length

namespace Takes

instance advance : Takes Parser.advance := ⟨fun _ => Cursor.advanced_lt⟩

instance bind {c : Parse α} {next : α → Parse β} [first : Takes c] [honest : ∀ a, Honest (next a)] :
    Takes (c >>= next) := by
  refine ⟨fun k more => ?_⟩
  have taken := first.takes k more
  rw [result_bind]
  generalize result c k = r at taken ⊢
  obtain ⟨_ | a, k₁⟩ := r
  · exact taken
  · exact Nat.lt_of_le_of_lt ((honest a).later k₁).unread.length_le taken

instance behindPeek {next : Token → Parse α} [then_ : ∀ t, Takes (next t)] :
    Takes (peek >>= next) :=
  ⟨fun k more => (then_ k.tokens.peek).takes k more⟩

section

variable {expr : Level → Parse Node} [∀ level, Honest (expr level)]

instance letStatement : Takes (letStatement expr) := by
  unfold Parser.letStatement
  infer_instance

instance returnStatement : Takes (returnStatement expr) := by
  unfold Parser.returnStatement
  infer_instance

instance expressionStatement [∀ level, Takes (expr level)] : Takes (expressionStatement expr) := by
  unfold Parser.expressionStatement
  infer_instance

instance statement [∀ level, Takes (expr level)] : Takes (statement expr) := by
  unfold Parser.statement
  refine @behindPeek _ _ fun token => ?_
  split <;> infer_instance

end

end Takes

/-! ## Recursions -/

/-- The recursion by `turn`, of which `bounded` goes on for a number of turns at most, comes to its
end by itself; `bound` is the number of turns that it is given for a number of tokens. -/
structure Terminates {ι : Type} (turn : (ι → Parse β) → ι → Parse β) (bounded : Nat → ι → Parse β)
    (bound : Nat → Nat) : Prop where
  /-- A higher bound is one more turn. -/
  step : ∀ m i, bounded (m + 1) i = turn (bounded m) i
  /-- Where the recursion goes on, it goes on behind a token that the turn has taken. -/
  taken : ∀ n (rest rest' : ι → Parse β), (∀ i, Honest (rest i)) →
    (∀ i, SameBelow n (rest i) (rest' i)) → ∀ i, SameBelow (n + 1) (turn rest i) (turn rest' i)
  /-- It does not matter what stands at a bound that is greater than the number of tokens. -/
  unreached : ∀ (other : ι → Parse β) n i, SameBelow n (bounded n i) (Nat.repeat turn n other i)
  /-- With the bound that it is given, the recursion has come to its end: another turn changes
  nothing. -/
  enough : ∀ n i, SameBelow (n + 1) (bounded (bound n) i) (turn (bounded (bound n)) i)

namespace Terminates

variable {ι : Type} {turn : (ι → Parse β) → ι → Parse β} {bounded : Nat → ι → Parse β}
  {bound : Nat → Nat}

/-- A recursion ends if each turn takes a token before the next and it stops at the end marker. -/
theorem of_taken [honest : ∀ m i, Honest (bounded m i)]
    (step : ∀ m i, bounded (m + 1) i = turn (bounded m) i)
    (taken : ∀ n (rest rest' : ι → Parse β), (∀ i, Honest (rest i)) →
      (∀ i, SameBelow n (rest i) (rest' i)) → ∀ i, SameBelow (n + 1) (turn rest i) (turn rest' i))
    (bound_succ : ∀ n, bound (n + 1) = bound n + 1)
    (stops : ∀ i, SameBelow 1 (bounded (bound 0) i) (turn (bounded (bound 0)) i)) :
    Terminates turn bounded bound where
  step := step
  taken := taken
  unreached other n := by
    induction n with
    | zero => exact fun i => .below_zero _ _
    | succ n ih =>
        intro i
        rw [step]
        exact taken n _ _ (honest n) ih i
  enough n := by
    induction n with
    | zero => exact stops
    | succ n ih =>
        intro i
        rw [bound_succ, step]
        refine taken (n + 1) _ _ (honest _) (fun j => ?_) i
        rw [step]
        exact ih j

/-- All bounds that are great enough are as good as each other. -/
theorem same [honest : ∀ m i, Honest (bounded m i)] (h : Terminates turn bounded bound) {n m : Nat}
    (great : bound n ≤ m) (i : ι) : SameBelow (n + 1) (bounded m i) (bounded (bound n) i) := by
  obtain ⟨further, rfl⟩ := Nat.exists_eq_add_of_le great
  clear great
  induction further generalizing i with
  | zero => exact .refl _
  | succ further ih =>
      rw [← Nat.add_assoc, h.step]
      have inner (j : ι) : SameBelow n (bounded (bound n + further) j) (bounded (bound n) j) :=
        (ih j).of_le (Nat.le_succ n)
      exact (h.taken n _ _ (honest _) inner i).trans (h.enough n i).symm

end Terminates

/-! ### The descent into expressions -/

section

variable {inner inner' : Level → Parse Node}

/-- An expression behind its first token, with a reader for the expressions inside it. -/
def behindFirst (inner : Level → Parse Node) (level : Level) (token : Token) : Parse Node :=
  match operand? inner token with
  | none => do
    report (.noOperand token.kind) token
    return .missing
  | some operand => do
    let left ← orMissing operand
    climb inner level (← ahead) left

/-- An expression, with a reader for the expressions inside it. -/
def descend (inner : Level → Parse Node) (level : Level) : Parse Node := do
  behindFirst inner level (← advance)

theorem expression_succ (depth : Nat) (level : Level) :
    expression (depth + 1) level = descend (expression depth) level := rfl

/-- No operand starts with the end marker. -/
theorem operand?_of_eof {token : Token} (is : token.kind = .eof) : operand? inner token = none := by
  simp only [operand?, is]

theorem behindFirst_of_eof {token : Token} (is : token.kind = .eof) (level : Level) :
    behindFirst inner level token = behindFirst inner' level token := by
  rw [behindFirst, behindFirst, operand?_of_eof is, operand?_of_eof is]

variable [∀ level, Honest (inner level)]

instance Honest.behindFirst (level : Level) (token : Token) :
    Honest (behindFirst inner level token) := by
  unfold Parser.behindFirst
  split
  · infer_instance
  · next found =>
    have := Honest.operand found
    infer_instance

instance Takes.descend (level : Level) : Takes (descend inner level) := by
  unfold Parser.descend
  infer_instance

variable [∀ level, SameBelow n (inner level) (inner' level)]

instance SameBelow.behindFirst (level : Level) (token : Token) :
    SameBelow n (behindFirst inner level token) (behindFirst inner' level token) := by
  have operands : Option.Rel (SameBelow n) (operand? inner token) (operand? inner' token) :=
    SameBelow.operand token
  have honest : ∀ c, operand? inner token = some c → Honest c := fun _ => Honest.operand
  unfold Parser.behindFirst
  generalize operand? inner token = c?, operand? inner' token = c'? at operands honest ⊢
  cases operands with
  | none => infer_instance
  | some same =>
      have := honest _ rfl
      infer_instance

/-- The expressions inside an expression are read behind its first token. -/
theorem SameBelow.descend (level : Level) :
    SameBelow (n + 1) (descend inner level) (descend inner' level) := by
  refine ⟨fun k ends short => ?_⟩
  change result (Parser.behindFirst inner level k.tokens.peek) k.advanced =
    result (Parser.behindFirst inner' level k.tokens.peek) k.advanced
  by_cases last : k.tokens.peek.kind = .eof
  · rw [behindFirst_of_eof last]
  · have taken := Cursor.advanced_lt (Cursor.unread_ne_nil ends last)
    have same : SameBelow n (Parser.behindFirst inner level k.tokens.peek)
      (Parser.behindFirst inner' level k.tokens.peek) := inferInstance
    exact same.same k.advanced ends (by omega)

end

instance Takes.expression (depth : Nat) (level : Level) : Takes (expression (depth + 1) level) :=
  inferInstanceAs (Takes (Parser.descend (Parser.expression depth) level))

theorem terminates_descend : Terminates descend expression (· + 1) :=
  .of_taken expression_succ (fun _ _ _ _ _ => .descend) (fun _ => rfl) fun level =>
    -- With one token an expression inside another one would start behind the end marker.
    have (level : Level) : SameBelow 0 (expression 0 level) (expression 1 level) := .below_zero _ _
    .descend level

/-! ### Loops -/

/-- Behind a token that has been taken, the readings need only be the same where less is left. -/
theorem SameBelow.behind {c : Parse α} {next next' : α → Parse β} [honest : Honest c]
    (same : ∀ a, SameBelow n (next a) (next' a)) {k : Cursor} (ends : k.tokens.final.kind = .eof)
    (short : k.tokens.unread.length < n + 1)
    (taken : ∀ a, (result c k).1 = some a →
      (result c k).2.tokens.unread.length < k.tokens.unread.length) :
    result (c >>= next) k = result (c >>= next') k := by
  have later := honest.later k
  rw [result_bind, result_bind]
  generalize result c k = r at taken later ⊢
  obtain ⟨_ | a, k₁⟩ := r
  · rfl
  · have fewer : k₁.tokens.unread.length < k.tokens.unread.length := taken a rfl
    exact (same a).same k₁ (later.marker ▸ ends) (by omega)

theorem SameBelow.behindAccept (kind : Token.Kind) (inside : kind ≠ .eof)
    {next next' : Bool → Parse α} (yes : SameBelow n (next true) (next' true))
    (no : SameBelow (n + 1) (next false) (next' false)) :
    SameBelow (n + 1) (Parser.accept kind >>= next) (Parser.accept kind >>= next') := by
  refine ⟨fun k ends short => ?_⟩
  rw [result_bind, result_bind, result_accept]
  by_cases is : k.tokens.peek.kind = kind
  · rw [if_pos is]
    have taken := Cursor.advanced_lt (Cursor.unread_ne_nil ends (is ▸ inside))
    exact yes.same k.advanced ends (by omega)
  · rw [if_neg is]
    exact no.same k ends short

theorem SameBelow.behindExpect (kind : Token.Kind) (inside : kind ≠ .eof)
    {next next' : Token → Parse α} (same : ∀ t, SameBelow n (next t) (next' t)) :
    SameBelow (n + 1) (Parser.expect kind >>= next) (Parser.expect kind >>= next') := by
  refine ⟨fun k ends short => SameBelow.behind same ends short ?_⟩
  rw [result_expect]
  split
  · next is => exact fun _ _ => Cursor.advanced_lt (Cursor.unread_ne_nil ends (is ▸ inside))
  · exact nofun

/-- Where no token is left, the next one is the end marker. -/
theorem Cursor.peek_kind_of_lt_one {k : Cursor} (ends : k.tokens.final.kind = .eof)
    (short : k.tokens.unread.length < 0 + 1) : k.tokens.peek.kind = .eof := by
  rw [TokenStream.peek, List.length_eq_zero_iff.1 (Nat.lt_one_iff.1 short)]
  exact ends

/-- A turn of the loop over statements. -/
def statementsTurn (more : Token.Kind → Bool) (statement : Parse Node)
    (others : Unit → Parse (List Node)) (_ : Unit) : Parse (List Node) := do
  if more (← peek).kind then
    let first ← optional statement
    let others ← others ()
    return first.toList ++ others
  else return []

theorem terminates_statements {more : Token.Kind → Bool} (last : more .eof = false)
    {statement : Parse Node} [Honest statement] [takes : Takes statement] :
    Terminates (statementsTurn more statement)
      (fun bound _ => statementsWhile more statement bound) (·) := by
  refine .of_taken (fun _ _ => rfl) (fun n others others' _ same _ => ?_) (fun _ => rfl) fun _ => ?_
  · refine ⟨fun k ends short => ?_⟩
    change result (if more k.tokens.peek.kind then _ else _) k =
      result (if more k.tokens.peek.kind then _ else _) k
    split
    · next go =>
      have := same ()
      refine SameBelow.behind (fun _ => inferInstance) ends short fun _ _ => ?_
      have taken := takes.takes k (Cursor.unread_ne_nil ends fun is => by simp [is, last] at go)
      rw [result_optional]
      generalize result statement k = r at taken ⊢
      obtain ⟨_ | _, _⟩ := r <;> exact taken
    · rfl
  · refine ⟨fun k ends short => ?_⟩
    change _ = result (if more k.tokens.peek.kind then _ else _) k
    rw [Cursor.peek_kind_of_lt_one ends short, last]
    rfl

/-- A turn of the loop over items that follow a comma. -/
def commasTurn (item : Parse α) (others : Unit → Parse (List α)) (_ : Unit) : Parse (List α) := do
  if ← accept .comma then
    let first ← item
    let others ← others ()
    return first :: others
  else return []

theorem terminates_commas {item : Parse α} [Honest item] :
    Terminates (commasTurn item) (fun bound _ => afterCommas item bound) (·) := by
  refine .of_taken (fun _ _ => rfl) (fun n others others' _ same _ => ?_) (fun _ => rfl) fun _ => ?_
  · have := same ()
    have := SameBelow.refl (n := n) item
    refine .behindAccept .comma (by decide) ?_ (.refl _)
    infer_instance
  · refine ⟨fun k ends short => ?_⟩
    unfold commasTurn
    rw [result_bind, result_accept, Cursor.peek_kind_of_lt_one ends short]
    rfl

/-- A turn of the loop over the pairs of a hash. -/
def pairsTurn (expr : Level → Parse Node) (others : Unit → Parse (List (Node × Node)))
    (_ : Unit) : Parse (List (Node × Node)) := do
  if ← accept .rbrace then return []
  else
    let key ← expr .lowest
    let _ ← expect .colon
    let value ← expr .lowest
    if ! (← nextIs .rbrace) then
      let _ ← expect .comma
    let others ← others ()
    return (key, value) :: others

section

variable {expr : Level → Parse Node} [∀ level, Honest (expr level)]

/-- The loop asks only for the closing brace, but without a colon it breaks off. -/
theorem SameBelow.pairsTurn {others others' : Unit → Parse (List (Node × Node))}
    [∀ i, Honest (others i)] [∀ i, SameBelow n (others i) (others' i)] (i : Unit) :
    SameBelow (n + 1) (pairsTurn expr others i) (pairsTurn expr others' i) := by
  have (level : Level) : SameBelow n (expr level) (expr level) := refl _
  refine .seq (.refl _) fun closed => ?_
  split
  · exact .refl _
  · refine .seq (.refl _) fun key => .behindExpect .colon (by decide) fun _ => ?_
    refine .seq inferInstance fun value => .seq inferInstance fun last => ?_
    dsimp only
    infer_instance

theorem terminates_pairs :
    Terminates (pairsTurn expr) (fun bound _ => pairs expr bound) (· + 1) := by
  refine .of_taken (fun _ _ => rfl) (fun _ _ _ _ _ => .pairsTurn) (fun _ => rfl) fun i => ?_
  change SameBelow (0 + 1) (Parser.pairsTurn expr (fun _ => pairs expr 0) i)
    (Parser.pairsTurn expr (fun _ => pairs expr 1) i)
  have : SameBelow 0 (pairs expr 0) (pairs expr 1) := .below_zero _ _
  exact .pairsTurn i

end

/-- A turn of the loop over the operators behind an operand. -/
def climbTurn (expr : Level → Parse Node) (level : Level) (others : Node → Parse Node)
    (left : Node) : Parse Node := do
  if level.admits (← peek).kind then
    let token ← advance
    let left ← orMissing (extend expr token left)
    others left
  else return left

theorem terminates_climb {expr : Level → Parse Node} [∀ level, Honest (expr level)]
    (level : Level) : Terminates (climbTurn expr level) (climb expr level) (·) := by
  have stops : level.admits .eof = false := by cases level <;> rfl
  refine .of_taken (fun _ _ => rfl) (fun n others others' _ same left => ?_) (fun _ => rfl)
    fun left => ?_
  · refine ⟨fun k ends short => ?_⟩
    change result (if level.admits k.tokens.peek.kind then _ else _) k =
      result (if level.admits k.tokens.peek.kind then _ else _) k
    split
    · next go =>
      refine SameBelow.behind (fun token => .seq (.refl _) same) ends short fun _ _ => ?_
      exact Cursor.advanced_lt (Cursor.unread_ne_nil ends fun is => by simp [is, stops] at go)
    · rfl
  · refine ⟨fun k ends short => ?_⟩
    change _ = result (if level.admits k.tokens.peek.kind then _ else _) k
    rw [Cursor.peek_kind_of_lt_one ends short, stops]
    rfl

/-! ## Programs -/

/-- The loop over statements goes on until a token stops it. -/
theorem statementsWhile_stops_at {more : Token.Kind → Bool} (last : more .eof = false)
    {statement : Parse Node} [honest : Honest statement] [takes : Takes statement] (bound : Nat)
    {k : Cursor} (ends : k.tokens.final.kind = .eof) (enough : k.tokens.unread.length ≤ bound) :
    ∃ ss k', result (statementsWhile more statement bound) k = (some ss, k') ∧
      more k'.tokens.peek.kind = false := by
  induction bound generalizing k with
  | zero =>
      refine ⟨[], k, rfl, ?_⟩
      rw [Cursor.peek_kind_of_lt_one ends (Nat.lt_succ_of_le enough), last]
  | succ bound ih =>
      change ∃ ss k', result (if more k.tokens.peek.kind then _ else _) k = (some ss, k') ∧ _
      cases go : more k.tokens.peek.kind with
      | false => exact ⟨[], k, rfl, go⟩
      | true =>
          have later := honest.later k
          have taken := takes.takes k (Cursor.unread_ne_nil ends fun is => by simp [is, last] at go)
          have ends' : (result statement k).2.tokens.final.kind = .eof := later.marker ▸ ends
          obtain ⟨ss, k', others, stops⟩ := ih ends' (by omega)
          rw [if_pos rfl, result_bind, result_optional]
          generalize result statement k = r at others ⊢
          obtain ⟨_ | s, k₁⟩ := r
          · refine ⟨ss, k', ?_, stops⟩
            dsimp only at others ⊢
            rw [result_bind, others]
            rfl
          · refine ⟨s :: ss, k', ?_, stops⟩
            dsimp only at others ⊢
            rw [result_bind, others]
            rfl

theorem result_ahead (k : Cursor) : result ahead k = (some k.tokens.unread.length, k) := rfl

/-- A program is read as its statements, up to an end marker. -/
theorem exists_result_program (tokens : TokenStream) (ends : tokens.final.kind = .eof) :
    ∃ ss k, result (statementsWhile (· != .eof)
        (statement (expression (tokens.unread.length + 1))) tokens.unread.length) ⟨tokens, []⟩ =
          (some ss, k) ∧
      result program ⟨tokens, []⟩ = (some (.program ss), k) ∧ k.tokens.peek.kind = .eof := by
  obtain ⟨ss, k, read, stops⟩ : ∃ ss k, result (statementsWhile (· != .eof)
      (statement (expression (tokens.unread.length + 1))) tokens.unread.length) ⟨tokens, []⟩ =
        (some ss, k) ∧ (k.tokens.peek.kind != .eof) = false :=
    statementsWhile_stops_at rfl _ ends (Nat.le_refl _)
  refine ⟨ss, k, read, ?_, by simpa using stops⟩
  unfold program
  simp only [result_bind, result_ahead, read]
  rfl

/-- A program is read up to the end marker behind all other tokens. -/
theorem result_program {tokens : TokenStream} (ends : tokens.final.kind = .eof)
    (inside : ∀ t ∈ tokens.unread, t.kind ≠ .eof) :
    ∃ ss reported, result program ⟨tokens, []⟩ =
      (some (.program ss), ⟨tokens.exhausted, reported⟩) := by
  obtain ⟨ss, ⟨⟨unread, final⟩, reported⟩, -, read, stops⟩ := exists_result_program tokens ends
  have later := Honest.later (c := program) ⟨tokens, []⟩
  rw [read] at later ⊢
  obtain rfl : final = tokens.final := later.marker
  refine ⟨ss, reported, ?_⟩
  cases unread with
  | nil => rfl
  | cons t ts => exact absurd stops (inside t (later.unread.subset (.head _)))

end Parser

open MonkeyLang.Parser

/-- Every stream of tokens is read up to its end marker, which can then be read any number of times.
The descent into expressions takes a token before it goes deeper, and each loop of the parser takes
one in each turn, so that the end marker ends them all before their bounds would. -/
theorem parser_ends :
    (∀ tokens : TokenStream, tokens.final.kind = .eof → (∀ t ∈ tokens.unread, t.kind ≠ .eof) →
      (∃ ss reported, result program ⟨tokens, []⟩ =
        (some (.program ss), ⟨tokens.exhausted, reported⟩)) ∧
      ∀ n, tokens.exhausted.take n = List.replicate n tokens.final) ∧
    Terminates descend expression (· + 1) ∧
    ∀ depth, let expr := expression (depth + 1)
      (∀ more : Token.Kind → Bool, more .eof = false →
        Terminates (statementsTurn more (statement expr))
          (fun bound _ => statementsWhile more (statement expr) bound) (·)) ∧
      (∀ level, Terminates (climbTurn expr level) (climb expr level) (·)) ∧
      Terminates (commasTurn parameter) (fun bound _ => afterCommas parameter bound) (·) ∧
      Terminates (commasTurn (expr .lowest)) (fun bound _ => afterCommas (expr .lowest) bound) (·) ∧
      Terminates (pairsTurn expr) (fun bound _ => pairs expr bound) (· + 1) := by
  refine ⟨fun tokens ends inside => ⟨result_program ends inside, tokens.take_exhausted⟩,
    terminates_descend, fun depth => ?_⟩
  exact ⟨fun _ last => terminates_statements last, terminates_climb, terminates_commas,
    terminates_commas, terminates_pairs⟩

/-- A hash that is never closed, with a group inside it that is not closed either. -/
theorem parser_ends_unclosed_hash :
    let tokens : TokenStream := ⟨[⟨.lbrace, "\x7b", ⟨1, 1⟩⟩, ⟨.lparen, "(", ⟨1, 2⟩⟩,
      ⟨.comma, ",", ⟨1, 3⟩⟩], ⟨.eof, "", ⟨1, 4⟩⟩⟩
    (∃ ss reported, result program ⟨tokens, []⟩ =
      (some (.program ss), ⟨tokens.exhausted, reported⟩)) ∧
    tokens.exhausted.take 2 = [tokens.final, tokens.final] := by
  intro tokens
  obtain ⟨read, again⟩ := parser_ends.1 tokens rfl (by decide)
  exact ⟨read, again 2⟩

end MonkeyLang
