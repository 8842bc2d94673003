import MonkeyLang.Editor.Documents
import MonkeyLang.Proofs.Lexing.Places
import MonkeyLang.Proofs.Parser.Steps

/-!
# Diagnostics come in the order of the text

A parser reports some mistakes at the token it has just read and some at the one that comes next, and
it reports them from inside constructs whose callers may report more. Still no report is made behind
the token to be read next, and none is made before an earlier report: this is an invariant of the
steps of a parser.

* `Position` is ordered by lines, then by columns; `TokenStream.inOrder_ofSource` says that the tokens
  of a text stand in this order.
* `Cursor.InOrder` is the invariant, and `Cursor.InOrder.step` that a step keeps it.
* `diagnostics_in_source_order` is what it says of the diagnostics of a text, and of the markers that
  an editor makes of them.
-/

namespace MonkeyLang

/-! ## Places in order -/

namespace Position

/-- By lines, and within a line by columns. -/
instance : LE Position :=
  ⟨fun p q => p.line < q.line ∨ p.line = q.line ∧ p.column ≤ q.column⟩

theorem le_def {p q : Position} :
    p ≤ q ↔ p.line < q.line ∨ p.line = q.line ∧ p.column ≤ q.column :=
  Iff.rfl

theorem le_refl (p : Position) : p ≤ p := .inr ⟨rfl, Nat.le_refl _⟩

theorem le_trans {p q r : Position} (h : p ≤ q) (h' : q ≤ r) : p ≤ r := by
  rw [le_def] at h h' ⊢
  omega

theorem le_next (p : Position) (c : CodePoint) : p ≤ p.next c := by
  unfold next
  split
  · exact .inl (Nat.lt_succ_self _)
  · exact .inr ⟨rfl, Nat.le_succ _⟩

/-- Reading leads on. -/
theorem le_after (p : Position) (cs : List CodePoint) : p ≤ p.after cs := by
  induction cs generalizing p with
  | nil => exact le_refl p
  | cons c cs ih => exact le_trans (le_next p c) (ih (p.next c))

theorem start_le_after (cs : List CodePoint) :
    1 ≤ (start.after cs).line ∧ 1 ≤ (start.after cs).column := by
  rw [line_after, column_after_start]
  exact ⟨Nat.le_add_right 1 _, Nat.le_add_left 1 _⟩

end Position

/-- The tokens stand in the order of their places. -/
def Token.InOrder (ts : List Token) : Prop := ts.Pairwise fun t t' => t.pos ≤ t'.pos

namespace TokenStream

/-- Tokens and the end marker have places that are reached by reading on. -/
theorem pos_scan (p : Position) (s : List CodePoint) :
    ∀ t ∈ (scan p s).toList, ∃ before, t.pos = p.after before := by
  fun_induction scan p s with
  | case1 p =>
      intro t mem
      obtain rfl := List.mem_singleton.1 mem
      exact ⟨[], rfl⟩
  | case2 p c r later layout ih =>
      intro t mem
      obtain ⟨before, place⟩ := ih t mem
      exact ⟨_, by rw [place, Position.after_append]⟩
  | case3 p c r later kind literal found ih =>
      intro t mem
      rcases List.mem_cons.1 mem with rfl | mem
      · exact ⟨[], rfl⟩
      · obtain ⟨before, place⟩ := ih t mem
        exact ⟨_, by rw [place, Position.after_append]⟩

theorem le_pos_scan (p : Position) (s : List CodePoint) : ∀ t ∈ (scan p s).toList, p ≤ t.pos := by
  intro t mem
  obtain ⟨before, place⟩ := pos_scan p s t mem
  exact place ▸ p.le_after before

theorem inOrder_scan (p : Position) (s : List CodePoint) : Token.InOrder (scan p s).toList := by
  fun_induction scan p s with
  | case1 p => exact List.pairwise_singleton _ _
  | case2 p c r later layout ih => exact ih
  | case3 p c r later kind literal found ih =>
      refine List.pairwise_cons.2 ⟨fun t mem => ?_, ih⟩
      exact Position.le_trans (p.le_after _) (le_pos_scan _ _ t mem)

theorem inOrder_ofSource (source : Text) : Token.InOrder (ofSource source).toList :=
  inOrder_scan _ _

/-! ### The next token -/

variable {s : TokenStream}

theorem peek_mem_toList : s.peek ∈ s.toList := by
  obtain ⟨_ | ⟨t, ts⟩, final⟩ := s
  · exact .head _
  · exact .head _

theorem toList_tail_sublist : s.tail.toList.Sublist s.toList :=
  (List.tail_sublist _).append_right _

/-- The next token stands no later than the one behind it. -/
theorem peek_le_peek_tail (h : Token.InOrder s.toList) : s.peek.pos ≤ s.tail.peek.pos := by
  obtain ⟨_ | ⟨t, ts⟩, final⟩ := s
  · exact Position.le_refl _
  · exact (List.pairwise_cons.1 h).1 _ (peek_mem_toList (s := ⟨ts, final⟩))

end TokenStream

/-! ## Reports in order -/

/-- The diagnostic is about the token: it stands at its place, and its mistake is noticed there. -/
structure Diagnostic.About (d : Diagnostic) (t : Token) : Prop where
  pos : d.pos = t.pos
  mistake : d.mistake.NoticedAt t

namespace Parser

/-- The tokens to be read come from `all` and stand in order. So do the reports, each of them about
a token, and none is behind the token to be read next. -/
structure Cursor.InOrder (all : List Token) (k : Cursor) : Prop where
  tokens : Token.InOrder k.tokens.toList
  inside : k.tokens.toList ⊆ all
  about : ∀ d ∈ k.reported, ∃ t ∈ all, d.About t
  sorted : k.reported.Pairwise fun later earlier => earlier.pos ≤ later.pos
  passed : ∀ d ∈ k.reported, d.pos ≤ k.tokens.peek.pos

namespace Cursor

variable {all : List Token} {k k' : Cursor}

theorem InOrder.start {tokens : TokenStream} (h : Token.InOrder tokens.toList) :
    InOrder tokens.toList ⟨tokens, []⟩ where
  tokens := h
  inside := List.Subset.refl _
  about := List.forall_mem_nil _
  sorted := .nil
  passed := List.forall_mem_nil _

theorem InOrder.advanced (h : k.InOrder all) : k.advanced.InOrder all where
  tokens := h.tokens.sublist TokenStream.toList_tail_sublist
  inside := List.Subset.trans TokenStream.toList_tail_sublist.subset h.inside
  about := h.about
  sorted := h.sorted
  passed d mem := Position.le_trans (h.passed d mem) (TokenStream.peek_le_peek_tail h.tokens)

/-- A report may be made at a token that stands between the earlier ones and the next token. -/
theorem InOrder.reporting {mistake : Mistake} {token : Token} (h : k.InOrder all)
    (mem : token ∈ all) (noticed : mistake.NoticedAt token)
    (behind : ∀ d ∈ k.reported, d.pos ≤ token.pos) (before : token.pos ≤ k.tokens.peek.pos) :
    (k.reporting mistake token).InOrder all where
  tokens := h.tokens
  inside := h.inside
  about := List.forall_mem_cons.2 ⟨⟨token, mem, rfl, noticed⟩, h.about⟩
  sorted := List.pairwise_cons.2 ⟨behind, h.sorted⟩
  passed := List.forall_mem_cons.2 ⟨before, h.passed⟩

/-- Every step keeps the order. -/
theorem InOrder.step (step : k.Step k') (h : k.InOrder all) : k'.InOrder all := by
  have mem : k.tokens.peek ∈ all := h.inside TokenStream.peek_mem_toList
  cases step with
  | read => exact h.advanced
  | refuse noticed => exact h.reporting mem noticed h.passed (Position.le_refl _)
  | misread noticed =>
      exact h.advanced.reporting mem noticed h.passed (TokenStream.peek_le_peek_tail h.tokens)

end Cursor

/-- So every run of a parser keeps the order. -/
theorem Stepwise.inOrder {α : Type} {c : Parse α} [h : Stepwise c] {all : List Token} {k : Cursor}
    (start : k.InOrder all) : (result c k).2.InOrder all :=
  (h.path k).keeps (fun _ _ => .step) start

end Parser

open MonkeyLang.Parser

/-- The diagnostics of tokens that stand in order are in order, and each is about one of them. -/
theorem parseTokens_inOrder {tokens : TokenStream} (h : Token.InOrder tokens.toList) :
    (∀ d ∈ (parseTokens tokens).diagnostics, ∃ t ∈ tokens.toList, d.About t) ∧
      (parseTokens tokens).diagnostics.Pairwise fun d d' => d.pos ≤ d'.pos := by
  have end_ := Stepwise.inOrder (c := program) (Cursor.InOrder.start h)
  change (∀ d ∈ (result program ⟨tokens, []⟩).2.reported.reverse, _) ∧
    (result program ⟨tokens, []⟩).2.reported.reverse.Pairwise _
  exact ⟨fun d mem => end_.about d (List.mem_reverse.1 mem), List.pairwise_reverse.2 end_.sorted⟩

open MonkeyLang.Editor

/-- The shift to places that count from zero loses nothing. -/
theorem Editor.Place.ofPosition_of_mem_lex {source : Text} {t : Token} (mem : t ∈ lex source) :
    (Place.ofPosition t.pos).line + 1 = t.pos.line ∧
      (Place.ofPosition t.pos).character + 1 = t.pos.column := by
  obtain ⟨before, place⟩ := TokenStream.pos_scan _ _ t mem
  obtain ⟨line, column⟩ := Position.start_le_after before
  rw [← place] at line column
  exact ⟨Nat.sub_add_cancel line, Nat.sub_add_cancel column⟩

/-- The messages of a text belong to its diagnostics one by one. Each diagnostic is about a token of
the text, the end marker being one, and stands at its place; the places never go back. The index of
a document has the same diagnostics, and the editor shows their messages in the same order at the
same places, counted from zero. -/
theorem diagnostics_in_source_order (source : Text) :
    let parsing := parse source
    parsing.errors.length = parsing.diagnostics.length ∧
    (∀ i : Nat, parsing.errors[i]? = parsing.diagnostics[i]?.map Diagnostic.message) ∧
    (∀ d ∈ parsing.diagnostics, ∃ t ∈ lex source, d.About t) ∧
    (parsing.diagnostics.Pairwise fun d d' => d.pos ≤ d'.pos) ∧
    (Index.ofText source).diagnostics.map (fun d =>
        let place := Place.ofPosition d.pos
        (d.message, place.line + 1, place.character + 1)) =
      parsing.diagnostics.map (fun d => (d.message, d.pos.line, d.pos.column)) ∧
    ∀ (docs : Documents) (address : Text),
      (docs.update address source).1.markers.map (fun m =>
          (m.message, m.range.start.line + 1, m.range.start.character + 1)) =
        parsing.diagnostics.map (fun d => (d.message, d.pos.line, d.pos.column)) := by
  intro parsing
  obtain ⟨about, sorted⟩ := parseTokens_inOrder (TokenStream.inOrder_ofSource source)
  have shown : ∀ d ∈ parsing.diagnostics,
      (d.message, (Place.ofPosition d.pos).line + 1, (Place.ofPosition d.pos).character + 1) =
        (d.message, d.pos.line, d.pos.column) := by
    intro d mem
    obtain ⟨t, inText, is⟩ := about d mem
    obtain ⟨line, column⟩ := Place.ofPosition_of_mem_lex inText
    rw [is.pos, line, column]
  refine ⟨List.length_map _, fun i => List.getElem?_map, about, sorted,
    List.map_congr_left shown, fun docs address => ?_⟩
  exact List.map_map.trans (List.map_congr_left shown)

end MonkeyLang
