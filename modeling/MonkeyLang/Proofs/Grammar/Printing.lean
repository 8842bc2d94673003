import MonkeyLang.Proofs.Grammar.WellFormed
import MonkeyLang.Proofs.Node.Erase

/-!
# Writing trees as tokens

`Node.words` writes a well-formed tree as a row of words, the kinds and literals of tokens without
their positions. Where parentheses are put is left open: `parens place e` tells whether they are put
around the expression `e` in a place for expressions of the tier `place` or tighter. If they are put
at least where they are needed, the grammar derives the tree from the words again, whatever the
positions of the tokens (`Node.writes`).

* `minimalParens`: parentheses only where they are needed.
-/

namespace MonkeyLang

open Grammar

namespace Grammar

/-- The tier of a binary operator. -/
def binaryTier (op : Text) : Tier :=
  ((binaryOperators.lookup op).bind Tier.ofKind?).getD .primary

/-- The tier next to the tier. -/
def Tier.tighter : Tier → Tier
  | .equality => .comparison
  | .comparison => .sum
  | .sum => .product
  | .product => .unary
  | .unary | .primary => .primary

theorem rank_le_primary (tier : Tier) : tier.rank ≤ Tier.primary.rank := by
  cases tier <;> decide

end Grammar

namespace Node

/-- The tier of an expression without parentheses. -/
def tier : Node → Tier
  | unary _ _ _ => .unary
  | binary _ _ op _ => binaryTier op
  | _ => .primary

/-- Is the node an expression in the place of a statement? -/
def isExprStmt : Node → Bool
  | exprStmt _ _ => true
  | _ => false

end Node

/-- Where parentheses are put: around which expressions, in which places. -/
abbrev Parens := Tier → Node → Bool

/-- Parentheses are put where an expression is too loose for its place, and never around a name. -/
structure Parens.Apt (parens : Parens) : Prop where
  enough : ∀ place e, e.tier.rank < place.rank → parens place e
  bare : ∀ place tok name, parens place (.ident tok name) = false

/-- Parentheses only where they are needed. -/
def minimalParens : Parens := fun place e => e.tier.rank < place.rank

theorem minimalParens_apt : minimalParens.Apt where
  enough _ _ := decide_eq_true
  bare place _ _ := decide_eq_false (Nat.not_lt.2 (rank_le_primary place))

/-- A place for any expression needs no parentheses. -/
theorem minimalParens_equality (e : Node) : minimalParens .equality e = false :=
  decide_eq_false (Nat.not_lt_zero _)

/-- Words in parentheses, if they are to be. -/
def parenthesized (inside : Bool) (ws : List Word) : List Word :=
  if inside then Token.Kind.lparen.word :: (ws ++ [Token.Kind.rparen.word]) else ws

namespace Node

open Token.Kind in
mutual

/-- The words of a tree. A semicolon stands behind each statement but an expression at the end. -/
def words (parens : Parens) : Node → List Word
  | missing | piece _ => []
  | program ss => stmtsWords parens ss
  | block _ ss => lbrace.word :: (stmtsWords parens ss ++ [rbrace.word])
  | letStmt _ name value =>
    kwLet.word :: (.ident, name.text) :: assign.word ::
      parenthesized (parens .equality value) (value.words parens)
  | returnStmt _ value =>
    kwReturn.word :: parenthesized (parens .equality value) (value.words parens)
  | exprStmt _ value => parenthesized (parens .equality value) (value.words parens)
  | ident _ name => [(.ident, name)]
  | int _ n => [(.int, toString n)]
  | bool _ value => [(if value then kwTrue else kwFalse).word]
  | str _ value => [(.string, value)]
  | array _ elements => lbracket.word :: (listWords parens elements ++ [rbracket.word])
  | hash _ pairs => lbrace.word :: (pairsWords parens pairs ++ [rbrace.word])
  | unary _ op operand =>
    ((unaryOperators.lookup op).getD illegal, op) ::
      parenthesized (parens .unary operand) (operand.words parens)
  | binary _ left op right =>
    parenthesized (parens (binaryTier op) left) (left.words parens) ++
      ((binaryOperators.lookup op).getD illegal, op) ::
        parenthesized (parens (binaryTier op).tighter right) (right.words parens)
  | ifElse _ condition consequence alternative =>
    kwIf.word :: lparen.word ::
      (parenthesized (parens .equality condition) (condition.words parens) ++ rparen.word ::
        (consequence.words parens ++
          if alternative.isMissing then [] else kwElse.word :: alternative.words parens))
  | fnLit _ parameters body =>
    kwFn.word :: lparen.word :: (listWords parens parameters ++ rparen.word :: body.words parens)
  | macroLit _ parameters body =>
    kwMacro.word :: lparen.word ::
      (listWords parens parameters ++ rparen.word :: body.words parens)
  | call _ callee arguments =>
    parenthesized (parens .primary callee) (callee.words parens) ++
      lparen.word :: (listWords parens arguments ++ [rparen.word])
  | index _ container position =>
    parenthesized (parens .primary container) (container.words parens) ++
      lbracket.word ::
        (parenthesized (parens .equality position) (position.words parens) ++ [rbracket.word])

/-- The words of some nodes with commas between them. -/
def listWords (parens : Parens) : List Node → List Word
  | [] => []
  | node :: nodes =>
    parenthesized (parens .equality node) (node.words parens) ++ othersWords parens nodes

/-- The words of some nodes with a comma before each. -/
def othersWords (parens : Parens) : List Node → List Word
  | [] => []
  | node :: nodes =>
    comma.word ::
      (parenthesized (parens .equality node) (node.words parens) ++ othersWords parens nodes)

/-- The words of the pairs of a hash. -/
def pairsWords (parens : Parens) : List (Node × Node) → List Word
  | [] => []
  | (key, value) :: pairs =>
    parenthesized (parens .equality key) (key.words parens) ++ colon.word ::
      (parenthesized (parens .equality value) (value.words parens) ++
        if pairs.isEmpty then [] else comma.word :: pairsWords parens pairs)

/-- The words of statements. -/
def stmtsWords (parens : Parens) : List Node → List Word
  | [] => []
  | stmt :: stmts =>
    stmt.words parens ++
      if stmt.isExprStmt && stmts.isEmpty then []
      else semicolon.word :: stmtsWords parens stmts

end

end Node

namespace Grammar

/-! ## What words spell -/

variable {α : Type} {parens : Parens}

/-- Tokens with these words derive the phrase of `a` up to the tokens in it. -/
def Writes (erased : α → α) (phrase : α → Phrase) (ws : List Word) (a : α) : Prop :=
  ∀ ts : List Token, ts.map Token.word = ws →
    ∃ b, erased b = erased a ∧ Derives (phrase b) ts

/-- Tokens with these words derive the expression, up to the tokens in it, at the tier or at a
tighter one. -/
def WritesAt (place : Tier) (ws : List Word) (e : Node) : Prop :=
  ∀ ts : List Token, ts.map Token.word = ws →
    ∃ tier e', e'.erase = e.erase ∧ Derives (.expr tier e') ts ∧ place.rank ≤ tier.rank

/-- The tokens spell the program, up to the tokens in it. -/
def Spells (ts : List Token) (p : Node) : Prop :=
  ∃ q, q.erase = p.erase ∧ Derives (.program q) ts

theorem word_eq {t : Token} {kind : Token.Kind} {literal : Text} :
    t.word = (kind, literal) ↔ t.kind = kind ∧ t.literal = literal := by
  rw [Token.word, Prod.mk.injEq]

theorem kind_of_word {t : Token} {kind : Token.Kind} (h : t.word = kind.word) : t.kind = kind :=
  congrArg Prod.fst h

/-- In the loosest place any expression can stand. -/
theorem WritesAt.item (h : WritesAt .equality ws e) :
    Writes Node.erase (.item .expression) ws e := by
  intro ts spelled
  obtain ⟨tier, e', same, derived, -⟩ := h ts spelled
  exact ⟨e', same, .expression derived⟩

/-- Tokens that spell words between brackets have brackets at both ends. -/
theorem split_brackets {opening closing : Token.Kind} {ws : List Word} {ts : List Token}
    (h : ts.map Token.word = opening.word :: (ws ++ [closing.word])) :
    ∃ t us u, ts = t :: (us ++ [u]) ∧ t.kind = opening ∧ us.map Token.word = ws ∧
      u.kind = closing := by
  obtain ⟨t, us, rfl, opened, rest⟩ := List.map_eq_cons_iff.1 h
  obtain ⟨vs, cs, rfl, inner, last⟩ := List.map_eq_append_iff.1 rest
  obtain ⟨u, rfl, closed⟩ := List.map_eq_singleton_iff.1 last
  exact ⟨t, vs, u, rfl, kind_of_word opened, inner, kind_of_word closed⟩

theorem eq_primary_of_rank {tier : Tier} (h : Tier.primary.rank ≤ tier.rank) : tier = .primary := by
  cases tier <;> first | rfl | exact absurd h (by decide)

theorem kind_of_unaryOperator {op : Text} (known : (unaryOperators.lookup op).isSome) :
    (unaryOperators.lookup op).getD .illegal = .bang ∨
      (unaryOperators.lookup op).getD .illegal = .minus := by
  obtain ⟨kind, found⟩ := Option.isSome_iff_exists.1 known
  have known_kinds : ∀ entry ∈ unaryOperators, entry.2 = .bang ∨ entry.2 = .minus := by decide
  rw [found]
  exact known_kinds (op, kind) (mem_of_lookup found)

theorem tier_of_binaryOperator {op : Text} (known : (binaryOperators.lookup op).isSome) :
    Tier.ofKind? ((binaryOperators.lookup op).getD .illegal) = some (binaryTier op) := by
  obtain ⟨kind, found⟩ := Option.isSome_iff_exists.1 known
  have known_kinds : ∀ entry ∈ binaryOperators, (Tier.ofKind? entry.2).isSome := by decide
  have some_tier := known_kinds (op, kind) (mem_of_lookup found)
  obtain ⟨tier, is⟩ := Option.isSome_iff_exists.1 some_tier
  unfold binaryTier
  rw [found, Option.getD_some, Option.bind_some, is, Option.getD_some]

theorem rank_lt_tighter {kind : Token.Kind} {tier : Tier} (h : Tier.ofKind? kind = some tier) :
    tier.rank < tier.tighter.rank := by
  cases kind <;> cases h <;> decide

namespace Writes

variable {e : Node} {ws us : List Word}

theorem place (apt : parens.Apt) (place : Tier) (h : Writes Node.erase (.expr e.tier) ws e) :
    WritesAt place (parenthesized (parens place e) ws) e := by
  intro ts spelled
  cases inside : parens place e with
  | false =>
      rw [inside] at spelled
      obtain ⟨e', same, derived⟩ := h ts spelled
      -- Without parentheses the expression is tight enough: too loose a one would have them.
      refine ⟨e.tier, e', same, derived, Nat.le_of_not_lt fun loose => ?_⟩
      rw [apt.enough place e loose] at inside
      cases inside
  | true =>
      rw [inside] at spelled
      obtain ⟨t, vs, u, rfl, opened, inner, closed⟩ := split_brackets spelled
      obtain ⟨e', same, derived⟩ := h vs inner
      refine ⟨.primary, e', same, ?_, rank_le_primary place⟩
      exact .group opened (.expression derived) closed

/-! ### Operands -/

variable {tok : Option Token}

theorem ident (name : Text) :
    Writes Node.erase (.expr .primary) [(.ident, name)] (.ident tok name) := by
  intro ts spelled
  obtain ⟨t, rfl, word⟩ := List.map_eq_singleton_iff.1 spelled
  obtain ⟨is, rfl⟩ := word_eq.1 word
  exact ⟨.ident t t.literal, rfl, .ident is⟩

theorem str (value : Text) :
    Writes Node.erase (.expr .primary) [(.string, value)] (.str tok value) := by
  intro ts spelled
  obtain ⟨t, rfl, word⟩ := List.map_eq_singleton_iff.1 spelled
  obtain ⟨is, rfl⟩ := word_eq.1 word
  exact ⟨.str t t.literal, rfl, .str is⟩

theorem int {n : Int} (fits : (Node.int tok n).fits .expression) :
    Writes Node.erase (.expr .primary) [(.int, toString n)] (.int tok n) := by
  intro ts spelled
  obtain ⟨t, rfl, word⟩ := List.map_eq_singleton_iff.1 spelled
  obtain ⟨is, literal⟩ := word_eq.1 word
  simp only [Node.fits, Bool.and_eq_true, decide_eq_true_eq, Bool.not_eq_true'] at fits
  obtain ⟨m, rfl⟩ := Int.eq_ofNat_of_zero_le fits.1
  have digits : t.literal = m.repr := literal
  refine ⟨.int t (Decimal.value t.literal.chars), ?_, .int is ?_⟩
  · rw [digits, Text.chars_ofString, Decimal.value_repr]
    rfl
  · rw [digits]
    rw [Text.length_ofString]
    exact Decimal.length_repr_le fits.2

theorem bool (value : Bool) : Writes Node.erase (.expr .primary)
    [(if value then Token.Kind.kwTrue else .kwFalse).word] (.bool tok value) := by
  intro ts spelled
  obtain ⟨t, rfl, word⟩ := List.map_eq_singleton_iff.1 spelled
  cases value with
  | true => exact ⟨.bool t true, rfl, .kwTrue (kind_of_word word)⟩
  | false => exact ⟨.bool t false, rfl, .kwFalse (kind_of_word word)⟩

theorem array {es : List Node} (h : Writes Node.eraseAll (.list .expression) ws es) :
    Writes Node.erase (.expr .primary)
      (Token.Kind.lbracket.word :: (ws ++ [Token.Kind.rbracket.word])) (.array tok es) := by
  intro ts spelled
  obtain ⟨t, vs, u, rfl, opened, inner, closed⟩ := split_brackets spelled
  obtain ⟨es', same, derived⟩ := h vs inner
  exact ⟨.array t es', by simp only [Node.erase, same],
    .array opened derived closed⟩

theorem hash {ps : List (Node × Node)} (h : Writes Node.erasePairs .pairs ws ps) :
    Writes Node.erase (.expr .primary)
      (Token.Kind.lbrace.word :: (ws ++ [Token.Kind.rbrace.word])) (.hash tok ps) := by
  intro ts spelled
  obtain ⟨t, vs, u, rfl, opened, inner, closed⟩ := split_brackets spelled
  obtain ⟨ps', same, derived⟩ := h vs inner
  exact ⟨.hash t ps', by simp only [Node.erase, same],
    .hash opened derived closed⟩

theorem unary {op : Text} (known : (unaryOperators.lookup op).isSome)
    (h : WritesAt .unary ws e) : Writes Node.erase (.expr .unary)
      (((unaryOperators.lookup op).getD .illegal, op) :: ws) (.unary tok op e) := by
  intro ts spelled
  obtain ⟨t, us, rfl, word, rest⟩ := List.map_eq_cons_iff.1 spelled
  obtain ⟨is, rfl⟩ := word_eq.1 word
  obtain ⟨tier, e', same, derived, tight⟩ := h us rest
  refine ⟨.unary t t.literal e', by simp only [Node.erase, same], .unary ?_ derived tight⟩
  rw [is]
  exact kind_of_unaryOperator known

theorem binary {op : Text} {l r : Node} (known : (binaryOperators.lookup op).isSome)
    (hl : WritesAt (binaryTier op) ws l) (hr : WritesAt (binaryTier op).tighter us r) :
    Writes Node.erase (.expr (binaryTier op))
      (ws ++ ((binaryOperators.lookup op).getD .illegal, op) :: us) (.binary tok l op r) := by
  intro ts spelled
  obtain ⟨vs, rest, rfl, left, rest⟩ := List.map_eq_append_iff.1 spelled
  obtain ⟨t, xs, rfl, word, right⟩ := List.map_eq_cons_iff.1 rest
  obtain ⟨is, rfl⟩ := word_eq.1 word
  obtain ⟨tier, l', same, derived, loose⟩ := hl vs left
  obtain ⟨tier', r', same', derived', tight⟩ := hr xs right
  have tier_eq := tier_of_binaryOperator known
  refine ⟨.binary t l' t.literal r', by simp only [Node.erase, same, same'],
    .binary ?_ derived loose derived' ?_⟩
  · rw [is, tier_eq]
  · exact Nat.lt_of_lt_of_le (rank_lt_tighter tier_eq) tight

theorem call {es : List Node} (h : WritesAt .primary ws e)
    (list : Writes Node.eraseAll (.list .expression) us es) :
    Writes Node.erase (.expr .primary)
      (ws ++ Token.Kind.lparen.word :: (us ++ [Token.Kind.rparen.word])) (.call tok e es) := by
  intro ts spelled
  obtain ⟨vs, rest, rfl, callee, rest⟩ := List.map_eq_append_iff.1 spelled
  obtain ⟨t, ys, u, rfl, opened, inner, closed⟩ := split_brackets rest
  obtain ⟨tier, e', same, derived, tight⟩ := h vs callee
  obtain ⟨es', same', derived'⟩ := list ys inner
  obtain rfl := eq_primary_of_rank tight
  exact ⟨.call t e' es', by simp only [Node.erase, same, same'],
    .call derived opened derived' closed⟩

theorem index {i : Node} (h : WritesAt .primary ws e) (position : WritesAt .equality us i) :
    Writes Node.erase (.expr .primary)
      (ws ++ Token.Kind.lbracket.word :: (us ++ [Token.Kind.rbracket.word]))
      (.index tok e i) := by
  intro ts spelled
  obtain ⟨vs, rest, rfl, container, rest⟩ := List.map_eq_append_iff.1 spelled
  obtain ⟨t, ys, u, rfl, opened, inner, closed⟩ := split_brackets rest
  obtain ⟨tier, e', same, derived, tight⟩ := h vs container
  obtain ⟨i', same', derived'⟩ := position.item ys inner
  obtain rfl := eq_primary_of_rank tight
  exact ⟨.index t e' i', by simp only [Node.erase, same, same'],
    .index derived opened derived' closed⟩

/-! ### Conditionals and functions -/

theorem ifThen {c b a : Node} (missing : a.isMissing) (condition : WritesAt .equality ws c)
    (body : Writes Node.erase .block us b) : Writes Node.erase (.expr .primary)
      (Token.Kind.kwIf.word :: Token.Kind.lparen.word ::
        (ws ++ Token.Kind.rparen.word :: us)) (.ifElse tok c b a) := by
  intro ts spelled
  obtain ⟨t, rest, rfl, is, spelled⟩ := List.map_eq_cons_iff.1 spelled
  obtain ⟨u, rest, rfl, opened, spelled⟩ := List.map_eq_cons_iff.1 spelled
  obtain ⟨vs, rest, rfl, inner, spelled⟩ := List.map_eq_append_iff.1 spelled
  obtain ⟨v, xs, rfl, closed, spelled⟩ := List.map_eq_cons_iff.1 spelled
  obtain ⟨c', same, derived⟩ := condition.item vs inner
  obtain ⟨b', same', derived'⟩ := body xs spelled
  cases a with
  | missing =>
      exact ⟨.ifElse t c' b' .missing, by simp only [Node.erase, same, same'],
        .ifThen (kind_of_word is) (kind_of_word opened) derived (kind_of_word closed) derived'⟩
  | _ => cases missing

theorem ifElse {c b a : Node} {vs : List Word} (condition : WritesAt .equality ws c)
    (body : Writes Node.erase .block us b) (alternative : Writes Node.erase .block vs a) :
    Writes Node.erase (.expr .primary)
      (Token.Kind.kwIf.word :: Token.Kind.lparen.word ::
        (ws ++ Token.Kind.rparen.word :: (us ++ Token.Kind.kwElse.word :: vs)))
      (.ifElse tok c b a) := by
  intro ts spelled
  obtain ⟨t, rest, rfl, is, spelled⟩ := List.map_eq_cons_iff.1 spelled
  obtain ⟨u, rest, rfl, opened, spelled⟩ := List.map_eq_cons_iff.1 spelled
  obtain ⟨vs, rest, rfl, inner, spelled⟩ := List.map_eq_append_iff.1 spelled
  obtain ⟨v, rest, rfl, closed, spelled⟩ := List.map_eq_cons_iff.1 spelled
  obtain ⟨xs, rest, rfl, inner', spelled⟩ := List.map_eq_append_iff.1 spelled
  obtain ⟨w, ys, rfl, else_, spelled⟩ := List.map_eq_cons_iff.1 spelled
  obtain ⟨c', same, derived⟩ := condition.item vs inner
  obtain ⟨b', same', derived'⟩ := body xs inner'
  obtain ⟨a', same'', derived''⟩ := alternative ys spelled
  exact ⟨.ifElse t c' b' a', by simp only [Node.erase, same, same', same''],
    .ifElse (kind_of_word is) (kind_of_word opened) derived (kind_of_word closed) derived'
      (kind_of_word else_) derived''⟩

theorem function {ps : List Node} {b : Node}
    (list : Writes Node.eraseAll (.list .parameter) ws ps) (body : Writes Node.erase .block us b)
    {ts : List Token} (spelled : ts.map Token.word =
      Token.Kind.lparen.word :: (ws ++ Token.Kind.rparen.word :: us)) :
    ∃ ps' b', Node.eraseAll ps' = Node.eraseAll ps ∧ b'.erase = b.erase ∧
      Derives (.function ps' b') ts := by
  obtain ⟨t, rest, rfl, opened, spelled⟩ := List.map_eq_cons_iff.1 spelled
  obtain ⟨vs, rest, rfl, inner, spelled⟩ := List.map_eq_append_iff.1 spelled
  obtain ⟨v, xs, rfl, closed, spelled⟩ := List.map_eq_cons_iff.1 spelled
  obtain ⟨ps', same, derived⟩ := list vs inner
  obtain ⟨b', same', derived'⟩ := body xs spelled
  exact ⟨ps', b', same, same',
    .function (kind_of_word opened) derived (kind_of_word closed) derived'⟩

theorem fnLit {ps : List Node} {b : Node} (list : Writes Node.eraseAll (.list .parameter) ws ps)
    (body : Writes Node.erase .block us b) : Writes Node.erase (.expr .primary)
      (Token.Kind.kwFn.word :: Token.Kind.lparen.word ::
        (ws ++ Token.Kind.rparen.word :: us)) (.fnLit tok ps b) := by
  intro ts spelled
  obtain ⟨t, rest, rfl, is, spelled⟩ := List.map_eq_cons_iff.1 spelled
  obtain ⟨ps', b', same, same', derived⟩ := function list body spelled
  exact ⟨.fnLit t ps' b', by simp only [Node.erase, same, same'],
    .fnLit (kind_of_word is) derived⟩

theorem macroLit {ps : List Node} {b : Node}
    (list : Writes Node.eraseAll (.list .parameter) ws ps) (body : Writes Node.erase .block us b) :
    Writes Node.erase (.expr .primary)
      (Token.Kind.kwMacro.word :: Token.Kind.lparen.word ::
        (ws ++ Token.Kind.rparen.word :: us)) (.macroLit tok ps b) := by
  intro ts spelled
  obtain ⟨t, rest, rfl, is, spelled⟩ := List.map_eq_cons_iff.1 spelled
  obtain ⟨ps', b', same, same', derived⟩ := function list body spelled
  exact ⟨.macroLit t ps' b', by simp only [Node.erase, same, same'],
    .macroLit (kind_of_word is) derived⟩

/-! ### Lists -/

theorem parameter (name : Text) :
    Writes Node.erase (.item .parameter) [(.ident, name)] (.ident tok name) := by
  intro ts spelled
  obtain ⟨t, rfl, word⟩ := List.map_eq_singleton_iff.1 spelled
  obtain ⟨is, rfl⟩ := word_eq.1 word
  exact ⟨.ident t t.literal, rfl, .parameter is⟩

variable {i : Item} {es : List Node}

theorem empty : Writes Node.eraseAll (.list i) [] [] := by
  intro ts spelled
  obtain rfl := List.map_eq_nil_iff.1 spelled
  exact ⟨[], rfl, .empty⟩

theorem listed (first : Writes Node.erase (.item i) ws e)
    (others : Writes Node.eraseAll (.others i) us es) :
    Writes Node.eraseAll (.list i) (ws ++ us) (e :: es) := by
  intro ts spelled
  obtain ⟨vs, xs, rfl, spelled, spelled'⟩ := List.map_eq_append_iff.1 spelled
  obtain ⟨e', same, derived⟩ := first vs spelled
  obtain ⟨es', same', derived'⟩ := others xs spelled'
  exact ⟨e' :: es', by simp only [Node.eraseAll, same, same'], .listed derived derived'⟩

theorem noOther : Writes Node.eraseAll (.others i) [] [] := by
  intro ts spelled
  obtain rfl := List.map_eq_nil_iff.1 spelled
  exact ⟨[], rfl, .noOther⟩

theorem other (first : Writes Node.erase (.item i) ws e)
    (others : Writes Node.eraseAll (.others i) us es) :
    Writes Node.eraseAll (.others i) (Token.Kind.comma.word :: (ws ++ us)) (e :: es) := by
  intro ts spelled
  obtain ⟨t, rest, rfl, comma, spelled⟩ := List.map_eq_cons_iff.1 spelled
  obtain ⟨vs, xs, rfl, spelled, spelled'⟩ := List.map_eq_append_iff.1 spelled
  obtain ⟨e', same, derived⟩ := first vs spelled
  obtain ⟨es', same', derived'⟩ := others xs spelled'
  exact ⟨e' :: es', by simp only [Node.eraseAll, same, same'],
    .other (kind_of_word comma) derived derived'⟩

theorem noPair : Writes Node.erasePairs .pairs [] [] := by
  intro ts spelled
  obtain rfl := List.map_eq_nil_iff.1 spelled
  exact ⟨[], rfl, .noPair⟩

theorem pair {k v : Node} {ps : List (Node × Node)} {xs : List Word}
    (key : WritesAt .equality ws k) (value : WritesAt .equality us v)
    (others : Writes Node.erasePairs .pairs xs ps) :
    Writes Node.erasePairs .pairs
      (ws ++ Token.Kind.colon.word :: (us ++
        if ps.isEmpty then [] else Token.Kind.comma.word :: xs)) ((k, v) :: ps) := by
  intro ts spelled
  obtain ⟨ys, rest, rfl, spelledKey, spelled⟩ := List.map_eq_append_iff.1 spelled
  obtain ⟨t, rest, rfl, colon, spelled⟩ := List.map_eq_cons_iff.1 spelled
  obtain ⟨zs, rest, rfl, spelledValue, spelled⟩ := List.map_eq_append_iff.1 spelled
  obtain ⟨k', same, derived⟩ := key.item ys spelledKey
  obtain ⟨v', same', derived'⟩ := value.item zs spelledValue
  cases ps with
  | nil =>
      obtain rfl := List.map_eq_nil_iff.1 spelled
      refine ⟨[(k', v')], by simp only [Node.erasePairs, same, same'], ?_⟩
      rw [List.append_nil]
      exact .lastPair derived (kind_of_word colon) derived'
  | cons p ps =>
      obtain ⟨u, rest, rfl, comma, spelled⟩ := List.map_eq_cons_iff.1 spelled
      obtain ⟨ps', same'', derived''⟩ := others rest spelled
      exact ⟨(k', v') :: ps', by rw [Node.erasePairs, Node.erasePairs, same, same', same''],
        .pair derived (kind_of_word colon) derived' (kind_of_word comma) derived''⟩

/-! ### Statements -/

theorem block {ss : List Node} (h : Writes Node.eraseAll .stmts ws ss) :
    Writes Node.erase .block
      (Token.Kind.lbrace.word :: (ws ++ [Token.Kind.rbrace.word])) (.block tok ss) := by
  intro ts spelled
  obtain ⟨t, vs, u, rfl, opened, inner, closed⟩ := split_brackets spelled
  obtain ⟨ss', same, derived⟩ := h vs inner
  exact ⟨.block t ss', by simp only [Node.erase, same], .block opened derived closed⟩

theorem letStmt {name : Name} (h : WritesAt .equality ws e) :
    Writes Node.erase .stmt
      (Token.Kind.kwLet.word :: (.ident, name.text) :: Token.Kind.assign.word :: ws)
      (.letStmt tok name e) := by
  intro ts spelled
  obtain ⟨t, rest, rfl, is, spelled⟩ := List.map_eq_cons_iff.1 spelled
  obtain ⟨u, rest, rfl, word, spelled⟩ := List.map_eq_cons_iff.1 spelled
  obtain ⟨v, rest, rfl, assign, spelled⟩ := List.map_eq_cons_iff.1 spelled
  obtain ⟨ident, text⟩ := word_eq.1 word
  obtain ⟨e', same, derived⟩ := h.item rest spelled
  exact ⟨.letStmt t ⟨u, u.literal⟩ e', by simp only [Node.erase, same, text],
    .letStmt (kind_of_word is) ident (kind_of_word assign) derived⟩

theorem returnStmt (h : WritesAt .equality ws e) :
    Writes Node.erase .stmt (Token.Kind.kwReturn.word :: ws) (.returnStmt tok e) := by
  intro ts spelled
  obtain ⟨t, rest, rfl, is, spelled⟩ := List.map_eq_cons_iff.1 spelled
  obtain ⟨e', same, derived⟩ := h.item rest spelled
  exact ⟨.returnStmt t e', by simp only [Node.erase, same], .returnStmt (kind_of_word is) derived⟩

theorem exprStmt (h : WritesAt .equality ws e) :
    Writes Node.erase .stmt ws (.exprStmt tok e) := by
  intro ts spelled
  obtain ⟨e', same, derived⟩ := h.item ts spelled
  cases ts with
  | nil => cases derived.starts
  | cons t ts => exact ⟨.exprStmt t e', by simp only [Node.erase, same], .exprStmt derived⟩

theorem noStmt : Writes Node.eraseAll .stmts [] [] := by
  intro ts spelled
  obtain rfl := List.map_eq_nil_iff.1 spelled
  exact ⟨[], rfl, .noStmt⟩

theorem stmt {s : Node} {ss : List Node} (first : Writes Node.erase .stmt ws s)
    (others : Writes Node.eraseAll .stmts us ss) :
    Writes Node.eraseAll .stmts
      (ws ++ if s.isExprStmt && ss.isEmpty then [] else Token.Kind.semicolon.word :: us)
      (s :: ss) := by
  intro ts spelled
  obtain ⟨vs, rest, rfl, spelledFirst, spelled⟩ := List.map_eq_append_iff.1 spelled
  obtain ⟨s', same, derived⟩ := first vs spelledFirst
  split at spelled
  · next last =>
      obtain rfl := List.map_eq_nil_iff.1 spelled
      obtain rfl := List.isEmpty_iff.1 (Bool.and_eq_true_iff.1 last).2
      exact ⟨[s'], by simp only [Node.eraseAll, same], .unclosed derived rfl nofun .noStmt⟩
  · obtain ⟨t, rest, rfl, semicolon, spelled⟩ := List.map_eq_cons_iff.1 spelled
    obtain ⟨ss', same', derived'⟩ := others rest spelled
    exact ⟨s' :: ss', by simp only [Node.eraseAll, same, same'],
      .closed derived (kind_of_word semicolon) derived'⟩

end Writes

end Grammar

namespace Node

/-! ## What trees are written as -/

variable {parens : Parens}

theorem eq_ident_of_fits {p : Node} (fits : p.fits .parameter) :
    ∃ tok name, p = ident tok name := by
  cases p with
  | ident tok name => exact ⟨tok, name, rfl⟩
  | _ => cases fits

/-- No parentheses stand around a parameter. -/
theorem writes_parameter (apt : parens.Apt) {p : Node} (fits : p.fits .parameter) :
    Writes erase (.item .parameter) (parenthesized (parens .equality p) (p.words parens)) p := by
  obtain ⟨tok, name, rfl⟩ := eq_ident_of_fits fits
  rw [apt.bare]
  exact .parameter name

theorem writes_otherParameters (apt : parens.Apt) (ps : List Node) (fits : fitsAll .parameter ps) :
    Writes eraseAll (.others .parameter) (othersWords parens ps) ps := by
  induction ps with
  | nil => exact .noOther
  | cons p ps ih =>
      simp only [fitsAll, Bool.and_eq_true] at fits
      exact .other (writes_parameter apt fits.1) (ih fits.2)

theorem writes_parameters (apt : parens.Apt) (ps : List Node) (fits : fitsAll .parameter ps) :
    Writes eraseAll (.list .parameter) (listWords parens ps) ps := by
  cases ps with
  | nil => exact .empty
  | cons p ps =>
      simp only [fitsAll, Bool.and_eq_true] at fits
      exact .listed (writes_parameter apt fits.1) (writes_otherParameters apt ps fits.2)

mutual

/-- The words of a well-formed expression spell it. -/
theorem writes_expr (apt : parens.Apt) : ∀ e : Node, e.fits .expression →
    Writes erase (.expr e.tier) (e.words parens) e
  | ident _ name, _ => .ident name
  | int _ _, fits => .int fits
  | bool _ value, _ => .bool value
  | str _ value, _ => .str value
  | array _ es, fits => .array (writes_list apt es fits)
  | hash _ ps, fits => .hash (writes_pairs apt ps fits)
  | unary _ op e, fits => by
    simp only [Node.fits, Bool.and_eq_true] at fits
    exact .unary fits.1 ((writes_expr apt e fits.2).place apt _)
  | binary _ l op r, fits => by
    simp only [Node.fits, Bool.and_eq_true] at fits
    exact .binary fits.1.1 ((writes_expr apt l fits.1.2).place apt _)
      ((writes_expr apt r fits.2).place apt _)
  | ifElse _ c b a, fits => by
    simp only [Node.fits, Bool.and_eq_true, Bool.or_eq_true] at fits
    have condition := (writes_expr apt c fits.1.1).place apt .equality
    have body := writes_block apt b fits.1.2
    cases missing : a.isMissing with
    | true =>
      simp only [words, missing, ↓reduceIte, List.append_nil]
      exact .ifThen missing condition body
    | false =>
      simp only [words, missing, Bool.false_eq_true, ↓reduceIte]
      exact .ifElse condition body
        (writes_block apt a (fits.2.resolve_left (Bool.eq_false_iff.1 missing)))
  | fnLit _ ps b, fits => by
    simp only [Node.fits, Bool.and_eq_true] at fits
    exact .fnLit (writes_parameters apt ps fits.1) (writes_block apt b fits.2)
  | macroLit _ ps b, fits => by
    simp only [Node.fits, Bool.and_eq_true] at fits
    exact .macroLit (writes_parameters apt ps fits.1) (writes_block apt b fits.2)
  | call _ e es, fits => by
    simp only [Node.fits, Bool.and_eq_true] at fits
    exact .call ((writes_expr apt e fits.1).place apt _) (writes_list apt es fits.2)
  | index _ e i, fits => by
    simp only [Node.fits, Bool.and_eq_true] at fits
    exact .index ((writes_expr apt e fits.1).place apt _) ((writes_expr apt i fits.2).place apt _)
  | missing, fits | program _, fits | block _ _, fits | letStmt _ _ _, fits
  | returnStmt _ _, fits | exprStmt _ _, fits | piece _, fits => nomatch fits

theorem writes_list (apt : parens.Apt) : ∀ es : List Node, fitsAll .expression es →
    Writes eraseAll (.list .expression) (listWords parens es) es
  | [], _ => .empty
  | e :: es, fits => by
    simp only [fitsAll, Bool.and_eq_true] at fits
    exact .listed ((writes_expr apt e fits.1).place apt .equality).item
      (writes_others apt es fits.2)

theorem writes_others (apt : parens.Apt) : ∀ es : List Node, fitsAll .expression es →
    Writes eraseAll (.others .expression) (othersWords parens es) es
  | [], _ => .noOther
  | e :: es, fits => by
    simp only [fitsAll, Bool.and_eq_true] at fits
    exact .other ((writes_expr apt e fits.1).place apt .equality).item
      (writes_others apt es fits.2)

theorem writes_pairs (apt : parens.Apt) : ∀ ps : List (Node × Node), fitsPairs ps →
    Writes erasePairs .pairs (pairsWords parens ps) ps
  | [], _ => .noPair
  | (k, v) :: ps, fits => by
    simp only [fitsPairs, Bool.and_eq_true] at fits
    have key := writes_expr apt k fits.1.1
    have value := writes_expr apt v fits.1.2
    exact .pair (key.place apt _) (value.place apt _)
      (writes_pairs apt ps fits.2)

theorem writes_block (apt : parens.Apt) : ∀ b : Node, b.fits .block →
    Writes erase .block (b.words parens) b
  | block _ ss, fits => .block (writes_stmts apt ss fits)
  | missing, fits | program _, fits | letStmt _ _ _, fits | returnStmt _ _, fits
  | exprStmt _ _, fits | ident _ _, fits | int _ _, fits | bool _ _, fits | str _ _, fits
  | array _ _, fits | hash _ _, fits | unary _ _ _, fits | binary _ _ _ _, fits
  | ifElse _ _ _ _, fits | fnLit _ _ _, fits | macroLit _ _ _, fits | call _ _ _, fits
  | index _ _ _, fits | piece _, fits => nomatch fits

theorem writes_stmts (apt : parens.Apt) : ∀ ss : List Node, fitsAll .statement ss →
    Writes eraseAll .stmts (stmtsWords parens ss) ss
  | [], _ => .noStmt
  | s :: ss, fits => by
    simp only [fitsAll, Bool.and_eq_true] at fits
    exact .stmt (writes_stmt apt s fits.1) (writes_stmts apt ss fits.2)

theorem writes_stmt (apt : parens.Apt) : ∀ s : Node, s.fits .statement →
    Writes erase .stmt (s.words parens) s
  | letStmt _ _ e, fits => .letStmt ((writes_expr apt e fits).place apt _)
  | returnStmt _ e, fits => .returnStmt ((writes_expr apt e fits).place apt _)
  | exprStmt _ e, fits => .exprStmt ((writes_expr apt e fits).place apt _)
  | missing, fits | program _, fits | block _ _, fits | ident _ _, fits | int _ _, fits
  | bool _ _, fits | str _ _, fits | array _ _, fits | hash _ _, fits | unary _ _ _, fits
  | binary _ _ _ _, fits | ifElse _ _ _ _, fits | fnLit _ _ _, fits | macroLit _ _ _, fits
  | call _ _ _, fits | index _ _ _, fits | piece _, fits => nomatch fits

end

/-- The words of a well-formed program spell it. -/
theorem spells_words (apt : parens.Apt) {ss : List Node} (fits : (program ss).fits .program)
    {ts : List Token} (spelled : ts.map Token.word = (program ss).words parens) :
    Spells ts (program ss) := by
  obtain ⟨ss', same, derived⟩ := writes_stmts apt ss fits ts spelled
  exact ⟨program ss', by simp only [erase, same], .program derived⟩

end Node

end MonkeyLang
