import MonkeyLang.Proofs.Lexing.Rendering
import MonkeyLang.Proofs.Parser.Completeness

/-!
# Reading the canonical text

The canonical text of a program is read as that program again, up to the tokens in its nodes, as
long as the text can be cut into the words of the program (`Node.Canonical`).
-/

namespace MonkeyLang

open Grammar

/-- The tokens of its canonical text spell a program. -/
theorem Node.spells_render {ss : List Node} (canonical : Canonical ss) :
    Spells (TokenStream.ofSource (program ss).render).unread (program ss) := by
  refine spells_words canonicalParens_apt canonical.fits ?_
  rw [← words_render canonical]
  exact Lexeme.words_scan _ _

/-- The canonical text of a program is read as the program. -/
theorem Parser.parse_canonical {ss : List Node} (canonical : Node.Canonical ss) :
    (parse (Node.program ss).render).errors = [] ∧
      (parse (Node.program ss).render).program.erase = (Node.program ss).erase := by
  have spelled := Node.spells_render canonical
  have ends := TokenStream.final_ofSource (Node.program ss).render
  unfold parse
  generalize TokenStream.ofSource (Node.program ss).render = tokens at spelled ends ⊢
  have : IsEnd tokens.final := ⟨ends⟩
  exact parseTokens_of_spells spelled

/-- The canonical text of a program is read without a mistake as the same program, up to the tokens
in its nodes. So what is read is written as the same text, and no other program has this text. -/
theorem parse_render {ss : List Node} (canonical : Node.Canonical ss) :
    (parse (Node.program ss).render).errors = [] ∧
    (parse (Node.program ss).render).program.erase = (Node.program ss).erase ∧
    (parse (Node.program ss).render).program.render = (Node.program ss).render ∧
    ∀ others, Node.Canonical others → (Node.program others).render = (Node.program ss).render →
      (Node.program others).erase = (Node.program ss).erase := by
  obtain ⟨accepted, same⟩ := Parser.parse_canonical canonical
  refine ⟨accepted, same, ?_, fun others canonical' text => ?_⟩
  · rw [← Node.render_erase, same, Node.render_erase]
  · have same' := (Parser.parse_canonical canonical').2
    rw [text] at same'
    exact same'.symm.trans same

/-- A negated name can be called with an index expression and a hash. -/
theorem parse_render_call :
    let name (text : Text) : Node := .ident none text
    let ss : List Node := [.letStmt none ⟨none, "f"⟩ (.unary none "-" (.int none 50)),
      .exprStmt none (.call none (.unary none "!" (name "f")) [.index none (name "a") (name "b"),
        .hash none [(name "k", .binary none (name "a") "==" (name "b"))]])]
    let text := "let f = (-50);(!f)((a[b]), \x7bk:(a == b)\x7d)"
    Node.Canonical ss ∧ (Node.program ss).render = text ∧ (parse text).errors = [] ∧
      (parse text).program.erase = .program ss := by
  intro name ss text
  have canonical : Node.Canonical ss := ⟨by decide +kernel, by decide, by decide⟩
  have written : (Node.program ss).render = text := by decide
  have read := parse_render canonical
  rw [written] at read
  exact ⟨canonical, written, read.1, read.2.1⟩

end MonkeyLang
