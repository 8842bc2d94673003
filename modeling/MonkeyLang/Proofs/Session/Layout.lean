import MonkeyLang.Proofs.Session.Observed

/-!
# Layout does not matter

Spaces, newlines and comments, and the ways to write a character in a string, do not show in the
kinds and the literals of tokens. Texts that agree in these are read as the same program up to
positions, and with the same mistakes. In every session they come to the same, and leave the same
behind.

* `Session.Like.refl`: every session is like itself.
* `layout_does_not_matter` is the result.
-/

namespace MonkeyLang

/-- Every session is like itself, with nothing else beside it. -/
theorem Session.Like.refl (s : Session) : s.Like .alone s := by
  have printed : ∃ lines, s.machine.printed = [] ++ lines ∧ s.machine.printed = [] ++ lines :=
    ⟨s.machine.printed, rfl, rfl⟩
  have pieces (id : Nat) : Renumbering.alone.pieces.move id = id := Shift.move_of_gap _ rfl id
  refine ⟨⟨rfl, ⟨?_, Nat.zero_le _, fun id _ => ?_⟩, ⟨(pieces _).symm, Nat.zero_le _, ?_⟩, ?_,
    Nat.zero_le _, printed⟩, rfl, Renumbering.alone_met⟩
  · rw [Renumbering.alone_scope]
  · rw [Renumbering.alone_scope]
    refine ⟨?_, fun around _ => Renumbering.alone_met around, _, rfl,
      List.forall₂_same.2 fun entry _ => ⟨rfl, .refl _ entry.2⟩⟩
    cases (s.machine.store.scope id).outer with
    | none => rfl
    | some outer => exact congrArg some (Renumbering.alone_scope outer).symm
  · rintro id _ ⟨rfl, -⟩
    exact Renumbering.alone_trees _ _
  · rw [Renumbering.alone_serials]

/-- Two texts whose tokens have the same kinds and literals have the same mistakes, and are read as
the same program up to positions. In every session they come to the same, they print the same
lines, and afterwards each scope binds the same names in the same order to values with the same
texts. -/
theorem layout_does_not_matter {text text' : Text}
    (same : (lex text).map Token.word = (lex text').map Token.word) :
    (parse text).errors = (parse text').errors ∧
      (parse text).program.Like (· = ·) (fun _ => True) (parse text').program ∧
      ∀ s : Session, s.report text = s.report text' ∧ s.output text = s.output text' ∧
        ∀ scope, (s.eval text).2.listing scope = (s.eval text').2.listing scope := by
  have ⟨program, mistakes⟩ := @parse_alike (fun _ => True) _ _ same fun _ _ _ => trivial
  have sources : Renumbering.alone.Sources text text' := ⟨same, fun _ _ _ _ => rfl⟩
  have values := Renumbering.alone_scope Session.values
  have macros := Renumbering.alone_scope Session.macros
  refine ⟨messages_eq mistakes, program.mono (fun _ _ => False.elim) fun _ _ => trivial, ?_⟩
  intro s
  have like := Session.Like.refl s
  refine ⟨like.report_eq values macros sources, like.output_eq values macros sources, ?_⟩
  intro scope
  have after := (like.eval values macros sources).1
  have seen : (s.eval text).2.listing scope = _ := after.listing_eq rfl
  rwa [Renumbering.alone_scope] at seen

/-- A function that prints a tab, written in one line, and over several lines with comments and an
escape. -/
theorem layout_does_not_matter_comments :
    let text := "let f = fn(x) \x7b puts(\"\t\", x) \x7d; f(1)"
    let text' := "let f=fn( x )\n// prints\n\x7bputs(\"\\t\",x)\x7d;\n\n  f( 1 ) // one line"
    (lex text).map Token.word = (lex text').map Token.word ∧
      (parse text).errors = (parse text').errors ∧
        (Session.start 0).report text = (Session.start 0).report text' ∧
          (Session.start 0).output text = (Session.start 0).output text' := by
  intro text text'
  have same : (lex text).map Token.word = (lex text').map Token.word := by decide +kernel
  obtain ⟨errors, -, sessions⟩ := layout_does_not_matter same
  obtain ⟨report, output, -⟩ := sessions (.start 0)
  exact ⟨same, errors, report, output⟩

end MonkeyLang
