import MonkeyLang.Proofs.Node.Like
import MonkeyLang.Proofs.Parser.Honest

/-!
# The layout of a text

A parser goes by the kinds and the literals of tokens. From rows of tokens that differ only in
positions it reads trees that differ only in positions, and it notices the same mistakes, whatever
is wrong with the text.

* `Parser.Alike` says so of two readings, with a rule for each way in which parsers are put
  together.
* `parse_alike` is the result for texts. It says, too, that all names in the tree are identifiers
  of the text.
-/

namespace MonkeyLang

/-- Two tokens that differ in their positions at most. If they are identifiers, their literal has
the property `Names`. -/
inductive Token.Like (Names : Text → Prop) : Token → Token → Prop
  | mk {kind : Kind} {literal : Text} {p p' : Position} : (kind = .ident → Names literal) →
    Like Names ⟨kind, literal, p⟩ ⟨kind, literal, p'⟩

theorem Token.Like.kind_eq {Names : Text → Prop} {t t' : Token} (h : t.Like Names t') :
    t.kind = t'.kind := by
  cases h
  rfl

/-- What is left to be read differs in positions at most, and the same mistakes have been
noticed. -/
structure Parser.Cursor.Like (Names : Text → Prop) (k k' : Cursor) : Prop where
  unread : List.Forall₂ (Token.Like Names) k.tokens.unread k'.tokens.unread
  final : k.tokens.final.Like Names k'.tokens.final
  reported : k.reported.map Diagnostic.mistake = k'.reported.map Diagnostic.mistake

namespace Parser

variable {Names : Text → Prop} {α β : Type} {R : α → α → Prop} {S : β → β → Prop}

namespace Cursor.Like

variable {k k' : Cursor}

theorem peek (h : k.Like Names k') : k.tokens.peek.Like Names k'.tokens.peek := by
  obtain ⟨⟨unread, final⟩, reported⟩ := k
  obtain ⟨⟨unread', final'⟩, reported'⟩ := k'
  cases h.unread with
  | nil => exact h.final
  | cons first _ => exact first

theorem advanced (h : k.Like Names k') : k.advanced.Like Names k'.advanced := by
  refine ⟨?_, h.final, h.reported⟩
  change List.Forall₂ _ k.tokens.unread.tail k'.tokens.unread.tail
  have unread := h.unread
  generalize k.tokens.unread = ts, k'.tokens.unread = ts' at unread ⊢
  cases unread with
  | nil => exact .nil
  | cons _ rest => exact rest

end Cursor.Like

/-- Two readings end in the same way, and what they yield is related. -/
def Alike (Names : Text → Prop) (c c' : Parse α) (R : α → α → Prop) : Prop :=
  ∀ k k' : Cursor, k.Like Names k' → Option.Rel R (result c k).1 (result c' k').1 ∧
    (result c k).2.Like Names (result c' k').2

namespace Alike

variable {c c' : Parse α}

theorem pure {a a' : α} (h : R a a') : Alike Names (Pure.pure a) (Pure.pure a') R :=
  fun _ _ like => ⟨.some h, like⟩

theorem bind {next next' : α → Parse β} (first : Alike Names c c' R)
    (then_ : ∀ a a', R a a' → Alike Names (next a) (next' a') S) :
    Alike Names (c >>= next) (c' >>= next') S := by
  intro k k' like
  have ended := first k k' like
  rw [result_bind, result_bind]
  generalize result c k = r, result c' k' = r' at ended ⊢
  obtain ⟨a?, k₁⟩ := r
  obtain ⟨a'?, k₁'⟩ := r'
  obtain ⟨yields, like₁⟩ := ended
  cases yields with
  | none => exact ⟨.none, like₁⟩
  | some h => exact then_ _ _ h _ _ like₁

theorem orMissing {c c' : Parse Node} {R : Node → Node → Prop} (h : Alike Names c c' R)
    (missing : R .missing .missing) : Alike Names (orMissing c) (orMissing c') R := by
  intro k k' like
  have ended := h k k' like
  rw [result_orMissing, result_orMissing]
  generalize result c k = r, result c' k' = r' at ended ⊢
  obtain ⟨a?, k₁⟩ := r
  obtain ⟨a'?, k₁'⟩ := r'
  obtain ⟨yields, like₁⟩ := ended
  cases yields with
  | none => exact ⟨.some missing, like₁⟩
  | some h => exact ⟨.some h, like₁⟩

theorem optional (h : Alike Names c c' R) :
    Alike Names (optional c) (optional c') (Option.Rel R) := by
  intro k k' like
  have ended := h k k' like
  rw [result_optional, result_optional]
  generalize result c k = r, result c' k' = r' at ended ⊢
  obtain ⟨a?, k₁⟩ := r
  obtain ⟨a'?, k₁'⟩ := r'
  obtain ⟨yields, like₁⟩ := ended
  cases yields with
  | none => exact ⟨.some .none, like₁⟩
  | some h => exact ⟨.some (.some h), like₁⟩

theorem peek : Alike Names peek peek (Token.Like Names) :=
  fun _ _ like => ⟨.some like.peek, like⟩

theorem ahead : Alike Names ahead ahead (· = ·) :=
  fun _ _ like => ⟨.some like.unread.length_eq, like⟩

theorem advance : Alike Names advance advance (Token.Like Names) :=
  fun _ _ like => ⟨.some like.peek, like.advanced⟩

theorem report {mistake mistake' : Mistake} (same : mistake = mistake') (t t' : Token) :
    Alike Names (report mistake t) (report mistake' t') fun _ _ => True := by
  refine fun k k' like => ⟨.some trivial, like.unread, like.final, ?_⟩
  change _ :: k.reported.map _ = _ :: k'.reported.map _
  rw [like.reported, same]

theorem expect (kind : Token.Kind) :
    Alike Names (expect kind) (expect kind) fun t t' => t.Like Names t' ∧ t.kind = kind := by
  intro k k' like
  have peek := like.peek
  rw [result_expect, result_expect, peek.kind_eq]
  split
  · next same => exact ⟨.some ⟨peek, peek.kind_eq.trans same⟩, like.advanced⟩
  · refine ⟨.none, like.unread, like.final, ?_⟩
    dsimp only
    rw [List.map_cons, List.map_cons, like.reported]

theorem accept (kind : Token.Kind) : Alike Names (accept kind) (accept kind) (· = ·) := by
  intro k k' like
  rw [result_accept, result_accept, like.peek.kind_eq]
  split
  · exact ⟨.some rfl, like.advanced⟩
  · exact ⟨.some rfl, like⟩

theorem nextIs (kind : Token.Kind) : Alike Names (nextIs kind) (nextIs kind) (· = ·) :=
  peek.bind fun _ _ like => .pure (by rw [like.kind_eq])

theorem ite {b : Prop} [Decidable b] {d d' : Parse α} (yes : Alike Names c c' R)
    (no : Alike Names d d' R) : Alike Names (if b then c else d) (if b then c' else d') R := by
  split
  · exact yes
  · exact no

end Alike

/-- Trees that differ in positions at most, and without places of pieces. -/
abbrev Read (Names : Text → Prop) : Node → Node → Prop := Node.Like (fun _ _ => False) Names

/-- Pairs of such trees. -/
abbrev ReadPair (Names : Text → Prop) (p p' : Node × Node) : Prop :=
  Read Names p.1 p'.1 ∧ Read Names p.2 p'.2

namespace Alike

/-! ## Lists -/

section

variable {item item' : Parse α}

theorem afterCommas (h : Alike Names item item' R) (n : Nat) :
    Alike Names (afterCommas item n) (afterCommas item' n) (List.Forall₂ R) := by
  induction n with
  | zero => exact .pure .nil
  | succ n ih =>
      refine (accept .comma).bind fun more _ same => ?_
      subst same
      exact .ite (h.bind fun _ _ first => ih.bind fun _ _ others => .pure (.cons first others))
        (.pure .nil)

theorem separated (h : Alike Names item item' R) :
    Alike Names (separated item) (separated item') (List.Forall₂ R) := by
  refine h.bind fun _ _ first => ahead.bind fun n _ same => ?_
  subst same
  exact (afterCommas h n).bind fun _ _ others => .pure (.cons first others)

theorem listUntil (h : Alike Names item item' R) (close : Token.Kind) :
    Alike Names (listUntil item close) (listUntil item' close) (List.Forall₂ R) := by
  refine (accept close).bind fun closed _ same => ?_
  subst same
  refine .ite (.pure .nil) (h.separated.bind fun _ _ items => ?_)
  exact (expect close).bind fun _ _ _ => .pure items

end

theorem statementsWhile (more : Token.Kind → Bool) {statement statement' : Parse Node}
    (h : Alike Names statement statement' (Read Names)) (n : Nat) :
    Alike Names (statementsWhile more statement n) (statementsWhile more statement' n)
      (List.Forall₂ (Read Names)) := by
  induction n with
  | zero => exact .pure .nil
  | succ n ih =>
      refine peek.bind fun t t' like => ?_
      rw [like.kind_eq]
      refine .ite (h.optional.bind fun first? first'? first => ih.bind fun _ _ others => .pure ?_)
        (.pure .nil)
      -- A statement that breaks off does so in both readings, and both leave it out.
      cases first with
      | none => exact others
      | some like => exact .cons like others

/-! ## Constructs -/

section

variable {expr expr' : Level → Parse Node}
  (h : ∀ level, Alike Names (expr level) (expr' level) (Read Names)) {t t' : Token}

include h

theorem letStatement :
    Alike Names (letStatement expr) (letStatement expr') (Read Names) := by
  refine advance.bind fun t t' start => (expect .ident).bind fun u u' name => ?_
  refine (expect .assign).bind fun _ _ _ => (h .lowest).bind fun _ _ value => ?_
  refine (accept .semicolon).bind fun _ _ _ => .pure ?_
  obtain ⟨name, ident⟩ := name
  cases start
  cases name with
  | mk names => exact .letStmt rfl rfl (names ident) value

theorem returnStatement :
    Alike Names (returnStatement expr) (returnStatement expr') (Read Names) := by
  refine advance.bind fun t t' start => (h .lowest).bind fun _ _ value => ?_
  refine (accept .semicolon).bind fun _ _ _ => .pure ?_
  cases start
  exact .returnStmt rfl value

theorem expressionStatement :
    Alike Names (expressionStatement expr) (expressionStatement expr') (Read Names) := by
  refine peek.bind fun t t' start => (h .lowest).bind fun _ _ value => ?_
  refine (accept .semicolon).bind fun _ _ _ => .pure ?_
  cases start
  exact .exprStmt rfl value

theorem statement : Alike Names (statement expr) (statement expr') (Read Names) := by
  refine peek.bind fun t t' like => ?_
  rw [like.kind_eq]
  split
  · exact letStatement h
  · exact returnStatement h
  · exact expressionStatement h

theorem block : Alike Names (block expr) (block expr') (Read Names) := by
  refine (expect .lbrace).bind fun t t' brace => ahead.bind fun n _ same => ?_
  subst same
  refine (statementsWhile _ (statement h) n).bind fun _ _ statements => ?_
  refine (expect .rbrace).optional.bind fun _ _ _ => .pure ?_
  cases brace.1
  exact .block rfl statements.length_eq (Node.LikeAll.each statements)

omit h in
theorem integer (like : t.Like Names t') : Alike Names (integer t) (integer t') (Read Names) := by
  cases like
  refine .ite ((report rfl _ _).bind fun _ _ _ => .pure .missing) (.pure (.int rfl))

theorem unary (like : t.Like Names t') :
    Alike Names (unary expr t) (unary expr' t') (Read Names) := by
  cases like
  exact (h .unary).bind fun _ _ operand => .pure (.unary rfl operand)

theorem grouped : Alike Names (grouped expr) (grouped expr') (Read Names) :=
  (h .lowest).bind fun _ _ inner => (expect .rparen).bind fun _ _ _ => .pure inner

theorem conditional (like : t.Like Names t') :
    Alike Names (conditional expr t) (conditional expr' t') (Read Names) := by
  cases like
  refine (expect .lparen).bind fun _ _ _ => (h .lowest).bind fun _ _ condition => ?_
  refine (expect .rparen).bind fun _ _ _ => (block h).bind fun _ _ consequence => ?_
  refine (accept .kwElse).bind fun more _ same => ?_
  subst same
  refine .ite ((block h).bind fun _ _ alternative => .pure ?_) (.pure ?_)
  · exact .ifElse rfl condition consequence alternative
  · exact .ifElse rfl condition consequence .missing

omit h in
theorem parameter : Alike Names parameter parameter (Read Names) := by
  refine (expect .ident).bind fun t t' name => .pure ?_
  obtain ⟨name, ident⟩ := name
  cases name with
  | mk names => exact .ident rfl (names ident)

theorem parametersAndBody :
    Alike Names (parametersAndBody expr) (parametersAndBody expr') fun r r' =>
      List.Forall₂ (Read Names) r.1 r'.1 ∧ Read Names r.2 r'.2 := by
  refine (expect .lparen).bind fun _ _ _ => (listUntil parameter .rparen).bind fun _ _ ps => ?_
  exact (block h).bind fun _ _ body => .pure ⟨ps, body⟩

theorem pairs (n : Nat) :
    Alike Names (pairs expr n) (pairs expr' n) (List.Forall₂ (ReadPair Names)) := by
  induction n with
  | zero => exact .pure .nil
  | succ n ih =>
      refine (accept .rbrace).bind fun closed _ same => ?_
      subst same
      refine .ite (.pure .nil) ((h .lowest).bind fun k k' key => ?_)
      refine (expect .colon).bind fun _ _ _ => (h .lowest).bind fun v v' value => ?_
      refine (nextIs .rbrace).bind fun last _ same => ?_
      subst same
      have first : ReadPair Names (k, v) (k', v') := ⟨key, value⟩
      refine .ite ((expect .comma).bind fun _ _ _ => ?_) ?_
      · exact ih.bind fun _ _ others => .pure (.cons first others)
      · exact ih.bind fun _ _ others => .pure (.cons first others)

theorem operand (like : t.Like Names t') :
    Option.Rel (fun c c' => Alike Names c c' (Read Names)) (operand? expr t)
      (operand? expr' t') := by
  have kind := like.kind_eq
  unfold operand?
  rw [← kind]
  split
  · next ident =>
    cases like with
    | mk names => exact .some (.pure (.ident rfl (names ident)))
  · exact .some (integer like)
  · cases like
    exact .some (.pure (.str rfl))
  · cases like
    exact .some (.pure (.bool rfl))
  · cases like
    exact .some (.pure (.bool rfl))
  · exact .some (unary h like)
  · exact .some (unary h like)
  · exact .some (grouped h)
  · exact .some (conditional h like)
  · cases like
    refine .some ((parametersAndBody h).bind fun _ _ both => .pure ?_)
    exact .fnLit rfl both.1.length_eq (Node.LikeAll.each both.1) both.2
  · cases like
    refine .some ((parametersAndBody h).bind fun _ _ both => .pure ?_)
    exact .macroLit rfl both.1.length_eq (Node.LikeAll.each both.1) both.2
  · cases like
    refine .some ((listUntil (h .lowest) .rbracket).bind fun _ _ items => .pure ?_)
    exact .array rfl items.length_eq (Node.LikeAll.each items)
  · cases like
    refine .some (ahead.bind fun n _ same => ?_)
    subst same
    refine (pairs h (n + 1)).bind fun _ _ ps => .pure ?_
    exact .hash rfl ps.length_eq (fun _ mem => ((List.forall₂_iff_zip.1 ps).2 mem).1)
      fun _ mem => ((List.forall₂_iff_zip.1 ps).2 mem).2
  · exact .none

/-! ## Operators -/

theorem extend (like : t.Like Names t') {left left' : Node} (lefts : Read Names left left') :
    Alike Names (extend expr t left) (extend expr' t' left') (Read Names) := by
  cases like
  unfold Parser.extend
  dsimp only
  split
  · refine (listUntil (h .lowest) .rparen).bind fun _ _ items => .pure ?_
    exact .call rfl lefts items.length_eq (Node.LikeAll.each items)
  · refine (h .lowest).bind fun _ _ position => (expect .rbracket).bind fun _ _ _ => ?_
    exact .pure (.index rfl lefts position)
  · exact (h _).bind fun _ _ right => .pure (.binary rfl lefts right)

theorem climb (level : Level) (n : Nat) {left left' : Node} (lefts : Read Names left left') :
    Alike Names (climb expr level n left) (climb expr' level n left') (Read Names) := by
  induction n generalizing left left' with
  | zero => exact .pure lefts
  | succ n ih =>
      refine peek.bind fun t t' like => ?_
      rw [like.kind_eq]
      refine .ite (advance.bind fun u u' operator => ?_) (.pure lefts)
      exact ((extend h operator lefts).orMissing .missing).bind fun _ _ extended => ih extended

end

/-! ## Programs -/

theorem expression (depth : Nat) (level : Level) :
    Alike Names (expression depth level) (expression depth level) (Read Names) := by
  induction depth generalizing level with
  | zero => exact .pure .missing
  | succ depth ih =>
      refine advance.bind fun t t' like => ?_
      have operand := operand ih like
      generalize operand? (Parser.expression depth) t = c,
        operand? (Parser.expression depth) t' = c' at operand ⊢
      cases operand with
      | none =>
          exact (report (by rw [like.kind_eq]) _ _).bind fun _ _ _ => .pure .missing
      | some operand =>
          refine (operand.orMissing .missing).bind fun _ _ left => ahead.bind fun n _ same => ?_
          subst same
          exact climb ih level n left

theorem program : Alike Names program program (Read Names) := by
  refine ahead.bind fun n _ same => ?_
  subst same
  refine (statementsWhile _ (statement (expression (n + 1))) n).bind fun _ _ statements => .pure ?_
  exact .program statements.length_eq (Node.LikeAll.each statements)

end Alike

end Parser

/-! ## Texts -/

/-- The messages do not tell where the mistakes stand. -/
theorem messages_eq {ds ds' : List Diagnostic}
    (same : ds.map Diagnostic.mistake = ds'.map Diagnostic.mistake) :
    ds.map Diagnostic.message = ds'.map Diagnostic.message := by
  have message : Diagnostic.message = Mistake.message ∘ Diagnostic.mistake := rfl
  rw [message, ← List.map_map, same, List.map_map]

/-- Rows of tokens with the same words differ in positions at most. -/
theorem Token.like_of_words {Names : Text → Prop} {ts ts' : List Token}
    (same : ts.map Token.word = ts'.map Token.word)
    (names : ∀ t ∈ ts, t.kind = .ident → Names t.literal) :
    List.Forall₂ (Token.Like Names) ts ts' := by
  induction ts generalizing ts' with
  | nil =>
      cases ts' with
      | nil => exact .nil
      | cons => cases same
  | cons t ts ih =>
      cases ts' with
      | nil => cases same
      | cons t' ts' =>
          obtain ⟨kind, literal, p⟩ := t
          obtain ⟨kind', literal', p'⟩ := t'
          obtain ⟨first, rest⟩ := List.cons.inj same
          cases first
          exact .cons (.mk (names _ (.head _))) (ih rest fun t mem => names t (.tail _ mem))

/-- Texts with the same words have the same mistakes and are read as the same program up to
positions. All names in it are identifiers of the text. -/
theorem parse_alike {Names : Text → Prop} {text text' : Text}
    (same : (lex text).map Token.word = (lex text').map Token.word)
    (names : ∀ t ∈ lex text, t.kind = .ident → Names t.literal) :
    (parse text).program.Like (fun _ _ => False) Names (parse text').program ∧
      (parse text).diagnostics.map Diagnostic.mistake =
        (parse text').diagnostics.map Diagnostic.mistake := by
  have rows := List.rel_reverse (Token.like_of_words same names)
  unfold lex TokenStream.toList at rows
  -- The end markers are the last tokens, so the tokens before them correspond, too.
  rw [List.reverse_append, List.reverse_append] at rows
  obtain ⟨final, unread⟩ := List.forall₂_cons.1 rows
  have start : Parser.Cursor.Like Names ⟨.ofSource text, []⟩ ⟨.ofSource text', []⟩ :=
    ⟨List.forall₂_reverse_iff.1 unread, final, rfl⟩
  have read := Parser.Alike.program _ _ start
  have parsed (text : Text) : parse text =
      ⟨(Parser.result Parser.program ⟨.ofSource text, []⟩).1.getD .missing,
        (Parser.result Parser.program ⟨.ofSource text, []⟩).2.reported.reverse⟩ := rfl
  rw [parsed, parsed]
  generalize Parser.result Parser.program ⟨.ofSource text, []⟩ = r,
    Parser.result Parser.program ⟨.ofSource text', []⟩ = r' at read ⊢
  obtain ⟨program?, k⟩ := r
  obtain ⟨program'?, k'⟩ := r'
  obtain ⟨yields, like⟩ := read
  refine ⟨?_, ?_⟩
  · cases yields with
    | none => exact .missing
    | some program => exact program
  · rw [List.map_reverse, List.map_reverse]
    exact congrArg List.reverse like.reported

end MonkeyLang
