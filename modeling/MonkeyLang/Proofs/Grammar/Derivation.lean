import MonkeyLang.Decimal
import MonkeyLang.Node

/-!
# The grammar of the language

`Derives phrase ts` says that the tokens `ts` spell the phrase, token by token. The rules are the
grammar of the language and know nothing of a parser: expressions are stratified into tiers, a
binary operator takes operands of its own tier or a tighter one to its left and of a tighter one to
its right, and parentheses make an operand of any expression.

A semicolon may be left out behind a statement unless another one, or a token that would continue
an expression, comes next.

* `Derives.starts`: which tokens a phrase can start with.
-/

namespace MonkeyLang

namespace Grammar

/-! ## Tokens -/

/-- The kind of the first token; behind the last one, that of the end marker. -/
def headKind : List Token → Token.Kind
  | [] => .eof
  | t :: _ => t.kind

@[simp] theorem headKind_nil : headKind [] = .eof := rfl

@[simp] theorem headKind_cons (t : Token) (ts : List Token) : headKind (t :: ts) = t.kind := rfl

theorem headKind_append {ts : List Token} (h : headKind ts ≠ .eof) (us : List Token) :
    headKind (ts ++ us) = headKind ts := by
  cases ts with
  | nil => exact absurd rfl h
  | cons t ts => rfl

/-- Can an expression start with such a token? -/
def opens : Token.Kind → Bool
  | .ident | .int | .string | .kwTrue | .kwFalse | .bang | .minus | .lparen | .kwIf | .kwFn
  | .kwMacro | .lbracket | .lbrace => true
  | _ => false

/-- Does such a token behind an expression continue it? -/
def continues : Token.Kind → Bool
  | .eq | .notEq | .lt | .gt | .plus | .minus | .asterisk | .slash | .lparen | .lbracket => true
  | _ => false

/-! ## Tiers -/

/-- The tiers of expressions, loosest first. -/
inductive Tier where
  | equality | comparison | sum | product | unary
  /-- Operands without an operator, calls and index expressions. -/
  | primary
deriving DecidableEq, Repr

/-- The number of looser tiers. -/
def Tier.rank : Tier → Nat
  | equality => 0
  | comparison => 1
  | sum => 2
  | product => 3
  | unary => 4
  | primary => 5

/-- The tier of a binary operator. -/
def Tier.ofKind? : Token.Kind → Option Tier
  | .eq | .notEq => some equality
  | .lt | .gt => some comparison
  | .plus | .minus => some sum
  | .asterisk | .slash => some product
  | _ => none

/-! ## Phrases -/

/-- What stands between the commas of a list. -/
inductive Item where
  | expression | parameter
deriving DecidableEq, Repr

/-- What a row of tokens can be read as. -/
inductive Phrase where
  /-- An expression whose outermost operator is of the tier. -/
  | expr (tier : Tier) (node : Node)
  /-- An expression of any tier, or a parameter. -/
  | item (item : Item) (node : Node)
  /-- Items with commas between them, possibly none. -/
  | list (item : Item) (nodes : List Node)
  /-- Items that each follow a comma. -/
  | others (item : Item) (nodes : List Node)
  /-- The pairs of a hash. -/
  | pairs (pairs : List (Node × Node))
  /-- The parameters in parentheses and the body of a function. -/
  | function (parameters : List Node) (body : Node)
  | block (node : Node)
  /-- A statement without the semicolon behind it. -/
  | stmt (node : Node)
  /-- Statements with the semicolons behind them. -/
  | stmts (nodes : List Node)
  | program (node : Node)

/-- The rules of the grammar. -/
inductive Derives : Phrase → List Token → Prop
  | ident {t : Token} : t.kind = .ident → Derives (.expr .primary (.ident t t.literal)) [t]
  | int {t : Token} : t.kind = .int → t.literal.length ≤ Decimal.longest →
    Derives (.expr .primary (.int t (Decimal.value t.literal.chars))) [t]
  | str {t : Token} : t.kind = .string → Derives (.expr .primary (.str t t.literal)) [t]
  | kwTrue {t : Token} : t.kind = .kwTrue → Derives (.expr .primary (.bool t true)) [t]
  | kwFalse {t : Token} : t.kind = .kwFalse → Derives (.expr .primary (.bool t false)) [t]
  | group {t u : Token} {e : Node} {ts : List Token} :
    t.kind = .lparen → Derives (.item .expression e) ts → u.kind = .rparen →
    Derives (.expr .primary e) (t :: (ts ++ [u]))
  | array {t u : Token} {es : List Node} {ts : List Token} :
    t.kind = .lbracket → Derives (.list .expression es) ts → u.kind = .rbracket →
    Derives (.expr .primary (.array t es)) (t :: (ts ++ [u]))
  | hash {t u : Token} {ps : List (Node × Node)} {ts : List Token} :
    t.kind = .lbrace → Derives (.pairs ps) ts → u.kind = .rbrace →
    Derives (.expr .primary (.hash t ps)) (t :: (ts ++ [u]))
  | ifThen {t u v : Token} {c b : Node} {ts us : List Token} :
    t.kind = .kwIf → u.kind = .lparen → Derives (.item .expression c) ts → v.kind = .rparen →
    Derives (.block b) us → Derives (.expr .primary (.ifElse t c b .missing))
      (t :: u :: (ts ++ v :: us))
  | ifElse {t u v w : Token} {c b a : Node} {ts us vs : List Token} :
    t.kind = .kwIf → u.kind = .lparen → Derives (.item .expression c) ts → v.kind = .rparen →
    Derives (.block b) us → w.kind = .kwElse → Derives (.block a) vs →
    Derives (.expr .primary (.ifElse t c b a)) (t :: u :: (ts ++ v :: (us ++ w :: vs)))
  | fnLit {t : Token} {ps : List Node} {b : Node} {ts : List Token} :
    t.kind = .kwFn → Derives (.function ps b) ts →
    Derives (.expr .primary (.fnLit t ps b)) (t :: ts)
  | macroLit {t : Token} {ps : List Node} {b : Node} {ts : List Token} :
    t.kind = .kwMacro → Derives (.function ps b) ts →
    Derives (.expr .primary (.macroLit t ps b)) (t :: ts)
  | call {t u : Token} {e : Node} {es : List Node} {ts us : List Token} :
    Derives (.expr .primary e) ts → t.kind = .lparen → Derives (.list .expression es) us →
    u.kind = .rparen → Derives (.expr .primary (.call t e es)) (ts ++ t :: (us ++ [u]))
  | index {t u : Token} {e i : Node} {ts us : List Token} :
    Derives (.expr .primary e) ts → t.kind = .lbracket → Derives (.item .expression i) us →
    u.kind = .rbracket → Derives (.expr .primary (.index t e i)) (ts ++ t :: (us ++ [u]))
  | unary {t : Token} {tier : Tier} {e : Node} {ts : List Token} :
    t.kind = .bang ∨ t.kind = .minus → Derives (.expr tier e) ts →
    Tier.unary.rank ≤ tier.rank → Derives (.expr .unary (.unary t t.literal e)) (t :: ts)
  | binary {t : Token} {tier left right : Tier} {l r : Node} {ts us : List Token} :
    Tier.ofKind? t.kind = some tier → Derives (.expr left l) ts → tier.rank ≤ left.rank →
    Derives (.expr right r) us → tier.rank < right.rank →
    Derives (.expr tier (.binary t l t.literal r)) (ts ++ t :: us)
  | expression {tier : Tier} {e : Node} {ts : List Token} :
    Derives (.expr tier e) ts → Derives (.item .expression e) ts
  | parameter {t : Token} : t.kind = .ident → Derives (.item .parameter (.ident t t.literal)) [t]
  | empty {i : Item} : Derives (.list i []) []
  | listed {i : Item} {e : Node} {es : List Node} {ts us : List Token} :
    Derives (.item i e) ts → Derives (.others i es) us → Derives (.list i (e :: es)) (ts ++ us)
  | noOther {i : Item} : Derives (.others i []) []
  | other {t : Token} {i : Item} {e : Node} {es : List Node} {ts us : List Token} :
    t.kind = .comma → Derives (.item i e) ts → Derives (.others i es) us →
    Derives (.others i (e :: es)) (t :: (ts ++ us))
  | noPair : Derives (.pairs []) []
  | lastPair {t : Token} {k v : Node} {ts us : List Token} :
    Derives (.item .expression k) ts → t.kind = .colon → Derives (.item .expression v) us →
    Derives (.pairs [(k, v)]) (ts ++ t :: us)
  | pair {t u : Token} {k v : Node} {ps : List (Node × Node)} {ts us vs : List Token} :
    Derives (.item .expression k) ts → t.kind = .colon → Derives (.item .expression v) us →
    u.kind = .comma → Derives (.pairs ps) vs →
    Derives (.pairs ((k, v) :: ps)) (ts ++ t :: (us ++ u :: vs))
  | function {t u : Token} {ps : List Node} {b : Node} {ts us : List Token} :
    t.kind = .lparen → Derives (.list .parameter ps) ts → u.kind = .rparen →
    Derives (.block b) us → Derives (.function ps b) (t :: (ts ++ u :: us))
  | block {t u : Token} {ss : List Node} {ts : List Token} :
    t.kind = .lbrace → Derives (.stmts ss) ts → u.kind = .rbrace →
    Derives (.block (.block t ss)) (t :: (ts ++ [u]))
  | letStmt {t u v : Token} {e : Node} {ts : List Token} :
    t.kind = .kwLet → u.kind = .ident → v.kind = .assign → Derives (.item .expression e) ts →
    Derives (.stmt (.letStmt t ⟨u, u.literal⟩ e)) (t :: u :: v :: ts)
  | returnStmt {t : Token} {e : Node} {ts : List Token} :
    t.kind = .kwReturn → Derives (.item .expression e) ts →
    Derives (.stmt (.returnStmt t e)) (t :: ts)
  | exprStmt {t : Token} {e : Node} {ts : List Token} :
    Derives (.item .expression e) (t :: ts) → Derives (.stmt (.exprStmt t e)) (t :: ts)
  | noStmt : Derives (.stmts []) []
  | closed {t : Token} {s : Node} {ss : List Node} {ts us : List Token} :
    Derives (.stmt s) ts → t.kind = .semicolon → Derives (.stmts ss) us →
    Derives (.stmts (s :: ss)) (ts ++ t :: us)
  | unclosed {s : Node} {ss : List Node} {ts us : List Token} :
    Derives (.stmt s) ts → continues (headKind us) = false → headKind us ≠ .semicolon →
    Derives (.stmts ss) us → Derives (.stmts (s :: ss)) (ts ++ us)
  | program {ss : List Node} {ts : List Token} :
    Derives (.stmts ss) ts → Derives (.program (.program ss)) ts

/-! ## First tokens -/

/-- Can a statement start with such a token? -/
def opensStmt (kind : Token.Kind) : Bool := kind = .kwLet || kind = .kwReturn || opens kind

theorem opensStmt_of_opens {kind : Token.Kind} (h : opens kind) : opensStmt kind := by
  rw [opensStmt, h, Bool.or_true]

theorem ne_eof_of_opens {kind : Token.Kind} (h : opens kind) : kind ≠ .eof := by
  intro same
  subst same
  cases h

theorem ne_eof_of_opensStmt {kind : Token.Kind} (h : opensStmt kind) : kind ≠ .eof := by
  intro same
  subst same
  cases h

/-- Do the tokens start like the phrase? -/
def Phrase.Starts : Phrase → List Token → Prop
  | .expr _ _, ts | .item _ _, ts => opens (headKind ts)
  | .others _ _, ts => ts = [] ∨ headKind ts = .comma
  | .block _, ts => headKind ts = .lbrace
  | .stmt _, ts => opensStmt (headKind ts)
  | .stmts _, ts => ts = [] ∨ opensStmt (headKind ts)
  | _, _ => True

theorem Derives.starts {phrase : Phrase} {ts : List Token} (h : Derives phrase ts) :
    phrase.Starts ts := by
  induction h with
  | call _ _ _ _ first _ | index _ _ _ _ first _ | binary _ _ _ _ _ first _ =>
      rw [Phrase.Starts, headKind_append (ne_eof_of_opens first)]
      exact first
  | expression _ first => exact first
  | exprStmt _ first => exact opensStmt_of_opens first
  | noStmt | noOther => exact .inl rfl
  | other h => exact .inr h
  | closed _ _ _ first _ | unclosed _ _ _ _ first _ =>
      rw [Phrase.Starts, headKind_append (ne_eof_of_opensStmt first)]
      exact .inr first
  | block h => exact h
  | unary h => rcases h with h | h <;> simp only [Phrase.Starts, headKind_cons, h] <;> rfl
  | ident h | int h | str h | kwTrue h | kwFalse h | group h | array h | hash h | ifThen h
  | ifElse h | fnLit h | macroLit h | parameter h | letStmt h | returnStmt h =>
      simp only [Phrase.Starts, headKind_cons, h]
      rfl
  | _ => exact trivial

/-- A statement takes a token. -/
theorem Derives.stmt_ne_nil {s : Node} {ts : List Token} (h : Derives (.stmt s) ts) : ts ≠ [] := by
  intro same
  subst same
  cases h.starts

end Grammar

end MonkeyLang
