import MonkeyLang.Proofs.Grammar.Derivation
import MonkeyLang.Proofs.Grammar.Lexical

/-!
# Well-formed trees

A tree is well-formed if every place in it holds a node of the category that belongs there, every
operator is one of the language, and every integer can be written as a literal. So nothing is
missing in it but the else branch of a conditional that has none.

* `Derives.wellFormed`: what the grammar derives is well-formed.
-/

namespace MonkeyLang

namespace Grammar

/-! ## Operators -/

/-- The operators before an operand. -/
def unaryOperators : List (Text × Token.Kind) := [("!", .bang), ("-", .minus)]

/-- The operators between operands. -/
def binaryOperators : List (Text × Token.Kind) :=
  [("==", .eq), ("!=", .notEq), ("<", .lt), (">", .gt), ("+", .plus), ("-", .minus),
    ("*", .asterisk), ("/", .slash)]

theorem unaryOperators_lookup {kind : Token.Kind} (h : kind = .bang ∨ kind = .minus) :
    ∃ op, kind.spelling? = some op ∧ unaryOperators.lookup op = some kind := by
  rcases h with rfl | rfl <;> exact ⟨_, rfl, by decide⟩

theorem binaryOperators_lookup {kind : Token.Kind} {tier : Tier}
    (h : Tier.ofKind? kind = some tier) :
    ∃ op, kind.spelling? = some op ∧ binaryOperators.lookup op = some kind := by
  cases kind <;> cases h <;> exact ⟨_, rfl, by decide⟩

/-! ## Trees -/

/-- What kind of place a node is in. -/
inductive Category where
  | program | block | statement | expression | parameter
deriving DecidableEq, Repr

end Grammar

open Grammar

namespace Node

mutual

/-- Is the node well-formed and of the category? -/
def fits : Category → Node → Bool
  | .program, program ss | .block, block _ ss => fitsAll .statement ss
  | .statement, letStmt _ _ value | .statement, returnStmt _ value
  | .statement, exprStmt _ value => value.fits .expression
  | .parameter, ident _ _ => true
  | .expression, ident _ _ | .expression, bool _ _ | .expression, str _ _ => true
  | .expression, int _ n => 0 ≤ n && !Decimal.isOverlong n
  | .expression, array _ elements => fitsAll .expression elements
  | .expression, hash _ pairs => fitsPairs pairs
  | .expression, unary _ op operand =>
    (unaryOperators.lookup op).isSome && operand.fits .expression
  | .expression, binary _ left op right =>
    (binaryOperators.lookup op).isSome && left.fits .expression && right.fits .expression
  | .expression, ifElse _ condition consequence alternative =>
    condition.fits .expression && consequence.fits .block &&
      (alternative.isMissing || alternative.fits .block)
  | .expression, fnLit _ parameters body | .expression, macroLit _ parameters body =>
    fitsAll .parameter parameters && body.fits .block
  | .expression, call _ callee arguments =>
    callee.fits .expression && fitsAll .expression arguments
  | .expression, index _ container position =>
    container.fits .expression && position.fits .expression
  | _, _ => false

/-- Are the nodes well-formed and of the category? -/
def fitsAll : Category → List Node → Bool
  | _, [] => true
  | category, node :: nodes => node.fits category && fitsAll category nodes

/-- Are the keys and values well-formed expressions? -/
def fitsPairs : List (Node × Node) → Bool
  | [] => true
  | (key, value) :: pairs => key.fits .expression && value.fits .expression && fitsPairs pairs

end

end Node

namespace Grammar

/-- The category of an item. -/
def Item.category : Item → Category
  | .expression => .expression
  | .parameter => .parameter

/-- Are the nodes of the phrase well-formed? -/
def Phrase.wellFormed : Phrase → Bool
  | .expr _ e => e.fits .expression
  | .item i e => e.fits i.category
  | .list i es | .others i es => Node.fitsAll i.category es
  | .pairs ps => Node.fitsPairs ps
  | .function ps b => Node.fitsAll .parameter ps && b.fits .block
  | .block b => b.fits .block
  | .stmt s => s.fits .statement
  | .stmts ss => Node.fitsAll .statement ss
  | .program p => p.fits .program

theorem Derives.wellFormed {phrase : Phrase} {ts : List Token} (h : Derives phrase ts)
    (lexical : ∀ t ∈ ts, t.Lexical) : phrase.wellFormed := by
  induction h with
  | int is short =>
      have digits := (lexical _ (List.mem_singleton.2 rfl)).digits is
      simp only [Phrase.wellFormed, Node.fits, Bool.and_eq_true, decide_eq_true_eq]
      refine ⟨Int.natCast_nonneg _, ?_⟩
      have bound := Decimal.value_lt fun _ => Text.isDigit_of_mem_chars digits
      rw [Text.length_chars_of_isDigit digits] at bound
      rw [Decimal.isOverlong_of_lt bound short]
      rfl
  | unary is _ _ ih =>
      rw [List.forall_mem_cons] at lexical
      obtain ⟨op, spelled, known⟩ := unaryOperators_lookup is
      simp only [Phrase.wellFormed, Node.fits, lexical.1.spelled op spelled, known]
      exact ih lexical.2
  | binary is _ _ _ _ left right =>
      rw [List.forall_mem_append, List.forall_mem_cons] at lexical
      obtain ⟨op, spelled, known⟩ := binaryOperators_lookup is
      simp only [Phrase.wellFormed, Node.fits, lexical.2.1.spelled op spelled, known]
      simp only [Option.isSome_some, Bool.true_and, Bool.and_eq_true]
      exact ⟨left lexical.1, right lexical.2.2⟩
  -- The other rules put parts together that are well-formed.
  | _ =>
      simp_all [Phrase.wellFormed, Node.fits, Node.fitsAll, Node.fitsPairs, Item.category,
        Node.isMissing]

end Grammar

end MonkeyLang
