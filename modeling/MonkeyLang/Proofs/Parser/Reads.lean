import MonkeyLang.Proofs.Grammar.Derivation
import MonkeyLang.Proofs.Parser.Honest

/-!
# Readings without a mistake

`Reads final c ts a us`: from the tokens `ts` the parser `c` reads `a` without a mistake and leaves
the tokens `us`, where `final` is the end marker.

As all parsers are honest, a reading of a sequence is a sequence of readings (`reads_bind`), and
there is no reading of a parser that reports something. So each construct is described by one
equivalence, which takes a reading of the construct apart into readings of its parts or puts it
together from them.
-/

namespace MonkeyLang

namespace Parser

open Grammar

variable {α β : Type}

/-- From the tokens `ts` the parser reads `a` without a mistake and leaves `us`. -/
def Reads (final : Token) (c : Parse α) (ts : List Token) (a : α) (us : List Token) : Prop :=
  result c ⟨⟨ts, final⟩, []⟩ = (some a, ⟨⟨us, final⟩, []⟩)

/-- The token is an end marker. -/
class IsEnd (final : Token) : Prop where
  kind_eq : final.kind = .eof

variable {final : Token} {ts us : List Token}

theorem peek_kind [ends : IsEnd final] (ts : List Token) :
    (TokenStream.peek ⟨ts, final⟩).kind = headKind ts := by
  cases ts with
  | nil => exact ends.kind_eq
  | cons t ts => rfl

/-! ## Bounds on what is left

What is read later has fewer tokens before it than what is read first. -/

section

variable {t : Token} {n : Nat}

theorem lt_of_cons (h : (t :: ts).length < n) : ts.length < n := Nat.lt_of_succ_lt h

theorem le_of_append (h : (ts ++ us).length ≤ n) : us.length ≤ n :=
  Nat.le_trans (List.sublist_append_right ts us).length_le h

theorem lt_of_append (h : (ts ++ us).length < n) : us.length < n :=
  Nat.lt_of_le_of_lt (List.sublist_append_right ts us).length_le h

end

/-! ## Sequences -/

theorem reads_pure {a b : α} : Reads final (pure a) ts b us ↔ b = a ∧ us = ts := by
  constructor
  · intro h
    cases h
    exact ⟨rfl, rfl⟩
  · intro parts
    obtain ⟨rfl, rfl⟩ := parts
    rfl

/-- What has no report is reached through what has none. -/
theorem Cursor.Later.eq_of_unreported {k : Cursor} {tokens : TokenStream}
    (h : k.Later ⟨tokens, []⟩) : k = ⟨⟨k.tokens.unread, tokens.final⟩, []⟩ := by
  obtain ⟨⟨unread, final⟩, reported⟩ := k
  cases reported with
  | nil => rw [h.marker]
  | cons d ds => exact absurd h.reported (Nat.not_succ_le_zero _)

theorem reads_bind {c : Parse α} {next : α → Parse β} [∀ a, Honest (next a)] {b : β} :
    Reads final (c >>= next) ts b us ↔
      ∃ a ms, Reads final c ts a ms ∧ Reads final (next a) ms b us := by
  unfold Reads
  rw [result_bind]
  constructor
  · intro h
    rcases hc : result c ⟨⟨ts, final⟩, []⟩ with ⟨_ | a, k⟩
    · rw [hc] at h
      cases h
    · rw [hc] at h
      have later := Honest.later (c := next a) k
      dsimp only at h
      rw [h] at later
      refine ⟨a, k.tokens.unread, ?_, ?_⟩
      · rw [← later.eq_of_unreported]
      · rw [← later.eq_of_unreported, h]
  · intro parts
    obtain ⟨a, ms, first, then_⟩ := parts
    rw [first]
    exact then_

/-- Nothing is read where something is reported. -/
theorem not_reads_report {mistake : Mistake} {token : Token} {next : Unit → Parse α}
    [∀ a, Honest (next a)] {a : α} : ¬ Reads final (report mistake token >>= next) ts a us := by
  rw [reads_bind]
  intro parts
  obtain ⟨_, _, h, _⟩ := parts
  cases h

/-- What breaks off has reported something. -/
theorem Honest.unreported {c : Parse α} [Honest c] {k : Cursor} {tokens : TokenStream} :
    result c k ≠ (none, ⟨tokens, []⟩) := by
  intro h
  have broken := Honest.broken (c := c) k
  rw [h] at broken
  exact absurd (broken rfl) (Nat.not_lt_zero _)

theorem reads_orMissing {c : Parse Node} [Honest c] {a : Node} :
    Reads final (orMissing c) ts a us ↔ Reads final c ts a us := by
  unfold Reads
  rw [result_orMissing]
  rcases hc : result c ⟨⟨ts, final⟩, []⟩ with ⟨_ | a, k⟩
  · constructor
    · intro h
      cases h
      exact absurd hc Honest.unreported
    · exact nofun
  · exact Iff.rfl

theorem reads_bind_optional {c : Parse α} [Honest c] {next : Option α → Parse β}
    [∀ o, Honest (next o)] {b : β} :
    Reads final (optional c >>= next) ts b us ↔
      ∃ a ms, Reads final c ts a ms ∧ Reads final (next (some a)) ms b us := by
  rw [reads_bind]
  unfold Reads
  rw [result_optional]
  rcases hc : result c ⟨⟨ts, final⟩, []⟩ with ⟨_ | a, k⟩
  · constructor
    · intro parts
      obtain ⟨_, _, h, _⟩ := parts
      cases h
      exact absurd hc Honest.unreported
    · intro parts
      obtain ⟨_, _, h, _⟩ := parts
      cases h
  · constructor
    · intro parts
      obtain ⟨_, ms, h, then_⟩ := parts
      cases h
      exact ⟨a, ms, rfl, then_⟩
    · intro parts
      obtain ⟨_, ms, h, then_⟩ := parts
      cases h
      exact ⟨some a, ms, rfl, then_⟩

theorem reads_ite {p : Prop} [Decidable p] {c d : Parse α} {a : α} :
    Reads final (if p then c else d) ts a us ↔
      (p ∧ Reads final c ts a us) ∨ (¬ p ∧ Reads final d ts a us) := by
  by_cases h : p
  · simp only [h, ↓reduceIte, true_and, not_true_eq_false, false_and, or_false]
  · simp only [h, ↓reduceIte, false_and, not_false_eq_true, true_and, false_or]

/-! ## Tokens -/

theorem reads_bind_peek {next : Token → Parse α} {a : α} :
    Reads final (peek >>= next) ts a us ↔
      Reads final (next (TokenStream.peek ⟨ts, final⟩)) ts a us :=
  Iff.rfl

theorem reads_bind_advance {next : Token → Parse α} {a : α} :
    Reads final (advance >>= next) ts a us ↔
      Reads final (next (TokenStream.peek ⟨ts, final⟩)) ts.tail a us :=
  Iff.rfl

theorem reads_bind_ahead {next : Nat → Parse α} {a : α} :
    Reads final (ahead >>= next) ts a us ↔ Reads final (next ts.length) ts a us :=
  Iff.rfl

variable [IsEnd final]

theorem reads_expect (kind : Token.Kind) (inside : kind ≠ .eof) {t : Token} :
    Reads final (expect kind) ts t us ↔ t.kind = kind ∧ ts = t :: us := by
  unfold Reads
  rw [result_expect]
  rw [peek_kind]
  constructor
  · split
    · next found =>
        intro h
        cases ts with
        | nil => exact absurd found.symm inside
        | cons u ts =>
            cases h
            exact ⟨found, rfl⟩
    · exact nofun
  · intro parts
    obtain ⟨rfl, rfl⟩ := parts
    rw [if_pos (headKind_cons ..)]
    rfl

theorem reads_bind_expect (kind : Token.Kind) (inside : kind ≠ .eof) {next : Token → Parse α}
    [∀ t, Honest (next t)] {a : α} :
    Reads final (expect kind >>= next) ts a us ↔
      ∃ t ms, t.kind = kind ∧ ts = t :: ms ∧ Reads final (next t) ms a us := by
  simp only [reads_bind, reads_expect kind inside, and_assoc]

theorem reads_bind_nextIs (kind : Token.Kind) {next : Bool → Parse α} {a : α} :
    Reads final (nextIs kind >>= next) ts a us ↔
      Reads final (next (headKind ts == kind)) ts a us := by
  unfold nextIs
  rw [bind_assoc, reads_bind_peek, pure_bind, peek_kind]

/-- A choice by the next token, which is read if it is of the kind. -/
theorem reads_bind_accept (kind : Token.Kind) (inside : kind ≠ .eof) {next : Bool → Parse α}
    {a : α} :
    Reads final (accept kind >>= next) ts a us ↔
      (∃ t ms, t.kind = kind ∧ ts = t :: ms ∧ Reads final (next true) ms a us) ∨
        (headKind ts ≠ kind ∧ Reads final (next false) ts a us) := by
  unfold Reads
  rw [result_bind, result_accept, peek_kind]
  by_cases is : headKind ts = kind
  · rw [if_pos is]
    cases ts with
    | nil => exact absurd is.symm inside
    | cons t ts =>
        constructor
        · exact fun then_ => .inl ⟨t, ts, is, rfl, then_⟩
        · intro either
          rcases either with ⟨t, ms, -, ⟨⟩, then_⟩ | ⟨other, -⟩
          · exact then_
          · exact absurd is other
  · rw [if_neg is]
    constructor
    · exact fun then_ => .inr ⟨is, then_⟩
    · intro either
      rcases either with ⟨t, ms, found, rfl, -⟩ | ⟨-, then_⟩
      · exact absurd found is
      · exact then_

end Parser

end MonkeyLang
