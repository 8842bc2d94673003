import MonkeyLang.Proofs.Grammar.Derivation
import MonkeyLang.Parser

/-!
# Levels and tiers

The parser goes by levels of precedence, the grammar by tiers. An expression of a tier may be
followed by any token that its level does not admit, and stands where the level of the place is
looser than its own. Only an operator before its operand stands at any place: it is read with the
operand.

Only levels up to `unary` are levels of places.
-/

namespace MonkeyLang

open Grammar

/-- The level of a tier: what it admits behind an expression of the tier would continue an operand
of that expression. -/
def Grammar.Tier.level : Tier → Parser.Level
  | .equality => .equality
  | .comparison => .comparison
  | .sum => .sum
  | .product => .product
  | .unary => .unary
  | .primary => .index

namespace Parser

/-- Can an expression of the tier stand at the level? -/
def Level.holds (level : Level) (tier : Tier) : Prop :=
  tier = .unary ∨ level.rank < tier.level.rank

/-- The level is that of a place for an expression. -/
def Level.IsPlace (level : Level) : Prop := level.rank ≤ Level.unary.rank

instance (level : Level) : Decidable level.IsPlace := inferInstanceAs (Decidable (_ ≤ _))

theorem rank_level_le {tier tier' : Tier} :
    tier.level.rank ≤ tier'.level.rank ↔ tier.rank ≤ tier'.rank := by
  cases tier <;> cases tier' <;> decide

theorem rank_level_lt {tier tier' : Tier} :
    tier.level.rank < tier'.level.rank ↔ tier.rank < tier'.rank := by
  cases tier <;> cases tier' <;> decide

theorem ofKind_eq_level {kind : Token.Kind} {tier : Tier} (h : Tier.ofKind? kind = some tier) :
    Level.ofKind kind = tier.level := by
  cases kind <;> cases h <;> rfl

/-- A token that continues an expression is a bracket or an operator of a tier. -/
theorem Level.admits_cases {level : Level} {kind : Token.Kind} (h : level.admits kind) :
    kind = .lparen ∨ kind = .lbracket ∨
      ∃ tier, Tier.ofKind? kind = some tier ∧ level.rank < tier.level.rank := by
  have looser : level.rank < (Level.ofKind kind).rank := of_decide_eq_true h
  cases kind with
  | lparen => exact .inl rfl
  | lbracket => exact .inr (.inl rfl)
  | eq | notEq | lt | gt | plus | minus | asterisk | slash => exact .inr (.inr ⟨_, rfl, looser⟩)
  | _ => exact absurd looser (Nat.not_lt_zero _)

theorem Level.not_admits {level : Level} {kind : Token.Kind} :
    level.admits kind = false ↔ (Level.ofKind kind).rank ≤ level.rank := by
  unfold Level.admits
  rw [decide_eq_false_iff_not, Nat.not_lt]

/-- Everything continues an operand at the loosest level that continues one at all. -/
theorem Level.lowest_admits (kind : Token.Kind) : Level.lowest.admits kind = continues kind := by
  cases kind <;> rfl

theorem Level.IsPlace.admits_bracket {level : Level} (place : level.IsPlace) :
    level.admits .lparen ∧ level.admits .lbracket := by
  have call : level.rank < Level.call.rank := Nat.lt_succ_of_le place
  have index : level.rank < Level.index.rank := Nat.lt_add_right 1 call
  exact ⟨decide_eq_true call, decide_eq_true index⟩

/-- Only a primary expression is not continued by a bracket. -/
theorem eq_primary {tier : Tier}
    (h : tier.level.admits .lparen = false ∨ tier.level.admits .lbracket = false) :
    tier = .primary := by
  cases tier <;> first | rfl | exact absurd h (by decide)

theorem primary_admits (kind : Token.Kind) : Tier.primary.level.admits kind = false := by
  cases kind <;> rfl

theorem isPlace_ofKind {kind : Token.Kind} {tier : Tier} (h : Tier.ofKind? kind = some tier) :
    (Level.ofKind kind).IsPlace := by
  cases kind <;> cases h <;> decide

theorem rank_lt_unary {kind : Token.Kind} {tier : Tier} (h : Tier.ofKind? kind = some tier) :
    tier.rank < Tier.unary.rank := by
  cases kind <;> cases h <;> decide

/-- An operand stands at every place. -/
theorem Level.IsPlace.holds {level : Level} (place : level.IsPlace) {tier : Tier}
    (tight : Tier.unary.rank ≤ tier.rank) : level.holds tier := by
  cases tier with
  | unary => exact .inl rfl
  | primary => exact .inr (Nat.lt_add_right 1 (Nat.lt_succ_of_le place))
  | _ => exact absurd tight (by decide)

/-- What does not go on at a level does not continue what stands there. -/
theorem Level.holds.stops {level : Level} {tier : Tier} (held : level.holds tier)
    (place : level.IsPlace) {kind : Token.Kind} (stops : level.admits kind = false) :
    tier.level.admits kind = false := by
  rw [Level.not_admits] at stops ⊢
  rcases held with rfl | looser
  · exact Nat.le_trans stops place
  · exact Nat.le_of_lt (Nat.lt_of_le_of_lt stops looser)

theorem isPlace_lowest : Level.lowest.IsPlace := by decide

theorem lowest_holds (tier : Tier) : Level.lowest.holds tier := by
  cases tier with
  | unary => exact .inl rfl
  | _ => exact .inr (by decide)

end Parser

end MonkeyLang
