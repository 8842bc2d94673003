import MonkeyLang.Node.Render
import MonkeyLang.Proofs.Grammar.Printing
import MonkeyLang.Proofs.Lexing.Words

/-!
# The words of the canonical text

The canonical text of a tree without strings, conditionals, functions and macros is cut into the
words of the tree, where parentheses stand around every operation but a call (`canonicalParens`).
No lexeme of the text fuses with the next one: the text of an expression is always followed by a
character that is no part of a name (`Lexeme.Cuts`).

* `Node.Canonical`: statements whose text can be read back.
* `Node.words_render`: the words of their text are those of the program.
-/

namespace MonkeyLang

open Lexeme Grammar

/-! ## Trees that can be read back -/

/-- Is the text a single word, an identifier or a keyword? -/
def isWord (text : Text) : Bool :=
  match text.toList with
  | [] => false
  | c :: cs => isIdentStart c && cs.all isIdentPart

/-- Is the text an identifier? -/
def isName (text : Text) : Bool := isWord text && decide (Token.Kind.ofWord text = .ident)

namespace Node

/-- Is the expression written in parentheses? -/
def isOperation : Node → Bool
  | unary _ _ _ | binary _ _ _ _ | index _ _ _ => true
  | _ => false

mutual

/-- Has the tree only nodes whose text can be read back, and only names that are identifiers? -/
def isReadable : Node → Bool
  | ident _ name => isName name
  | int _ _ | bool _ _ => true
  | array _ elements => allReadable elements
  | hash _ pairs => pairsReadable pairs
  | unary _ _ e | returnStmt _ e | exprStmt _ e => e.isReadable
  | letStmt _ name e => isName name.text && e.isReadable
  | binary _ left _ right | index _ left right => left.isReadable && right.isReadable
  | call _ callee arguments => callee.isReadable && allReadable arguments
  | _ => false

/-- Have the trees only nodes whose text can be read back? -/
def allReadable : List Node → Bool
  | [] => true
  | node :: nodes => node.isReadable && allReadable nodes

/-- Have the keys and values only nodes whose text can be read back? -/
def pairsReadable : List (Node × Node) → Bool
  | [] => true
  | (key, value) :: pairs => key.isReadable && value.isReadable && pairsReadable pairs

end

end Node

/-- Parentheses around every operation but a call. -/
def canonicalParens : Parens := fun _ e => e.isOperation

theorem canonicalParens_apt : canonicalParens.Apt where
  enough place e loose := by
    cases e with
    | unary | binary | index => rfl
    | _ => exact absurd loose (Nat.not_lt.2 (rank_le_primary place))
  bare _ _ _ := rfl

namespace Lexeme

/-! ## Words and operators -/

theorem cuts_word {text : Text} (h : isWord text) :
    Cuts text.toList [(Token.Kind.ofWord text, text)] := by
  intro rest apart
  unfold isWord at h
  split at h
  · cases h
  · next c cs chars =>
      simp only [Bool.and_eq_true, List.all_eq_true] at h
      have text_eq : Text.ofList (c :: cs) = text := by rw [← chars, Text.ofList_toList]
      rw [chars, List.cons_append, words_name h.1 h.2 apart, text_eq]
      rfl

/-- A keyword is cut as itself. -/
theorem cuts_keyword {text : Text} {kind : Token.Kind} (word : isWord text)
    (is : Token.Kind.ofWord text = kind) (spelled : kind.spelling? = some text) :
    Cuts text.toList [kind.word] := by
  have own : kind.word = (kind, text) := by rw [Token.Kind.word, spelled, Option.getD_some]
  have cut := cuts_word word
  rwa [is, ← own] at cut

theorem cuts_ident {name : Text} (h : isName name) : Cuts name.toList [(.ident, name)] := by
  simp only [isName, Bool.and_eq_true, decide_eq_true_eq] at h
  have cut := cuts_word h.1
  rwa [h.2] at cut

/-- The text of a natural number is a row of digits. -/
theorem toList_repr (n : Nat) :
    ∃ c cs, Text.toList n.repr = c :: cs ∧ c.isDigit ∧ ∀ d ∈ cs, d.isDigit := by
  have digits : ∀ c ∈ Text.toList n.repr, c.isDigit := by
    rw [Text.toList_ofString, Nat.toList_repr, List.forall_mem_map]
    exact fun c hc => Nat.isDigit_of_mem_toDigits (by decide) (by decide) hc
  cases chars : Text.toList n.repr with
  | nil => exact absurd (Text.ofString_inj.1 (Text.toList_eq_nil_iff.1 chars)) Nat.repr_ne_empty
  | cons c cs =>
      rw [chars, List.forall_mem_cons] at digits
      exact ⟨c, cs, rfl, digits.1, digits.2⟩

theorem cuts_repr (n : Nat) : Cuts (Text.toList n.repr) [(.int, n.repr)] := by
  intro rest apart
  obtain ⟨c, cs, chars, first, others⟩ := toList_repr n
  rw [chars, List.cons_append, words_digits first others apart, ← chars, Text.ofList_toList]
  rfl

variable {s t : List CodePoint} {ws us : List Word} {op : Text}

/-- Blanks stand around a binary operator. -/
theorem Cuts.binary (known : (binaryOperators.lookup op).isSome) (left : Cuts s ws)
    (right : Cuts t us) : Cuts (s ++ .char ' ' :: (op.toList ++ .char ' ' :: t))
      (ws ++ ((binaryOperators.lookup op).getD .illegal, op) :: us) := by
  refine left.followed rfl (blank fun rest apart => ?_)
  obtain ⟨kind, found⟩ := Option.isSome_iff_exists.1 known
  have mem : (op, kind) ∈ binaryOperators := mem_of_lookup found
  have cut : words (.char ' ' :: (t ++ rest)) = us ++ words rest := right.blank apart
  have noSymbol {c : CodePoint} : Alone c (.char ' ' :: (t ++ rest)) := ⟨fun _ => by simp, fun _ => by simp⟩
  rw [found, Option.getD_some, List.append_assoc, List.cons_append, List.cons_append, ← cut]
  simp only [binaryOperators, List.mem_cons, Prod.mk.injEq, List.not_mem_nil, or_false] at mem
  -- Two operators are symbols of two characters; no other fuses with the blank behind it.
  rcases mem with ⟨rfl, rfl⟩ | ⟨rfl, rfl⟩ | ⟨rfl, rfl⟩ | ⟨rfl, rfl⟩ | ⟨rfl, rfl⟩ | ⟨rfl, rfl⟩ |
    ⟨rfl, rfl⟩ | ⟨rfl, rfl⟩
  · exact words_eqSymbol _
  · exact words_notEqSymbol _
  all_goals exact words_symbol rfl noSymbol

/-- Behind a unary operator stands what does not start with an equals sign. -/
theorem Cuts.unary (known : (unaryOperators.lookup op).isSome) (operand : Cuts s ws)
    (first : ∃ c ∈ s.head?, c ≠ '=') :
    Cuts (op.toList ++ s) (((unaryOperators.lookup op).getD .illegal, op) :: ws) := by
  obtain ⟨kind, found⟩ := Option.isSome_iff_exists.1 known
  have mem : (op, kind) ∈ unaryOperators := mem_of_lookup found
  obtain ⟨c, head, other⟩ := first
  have noEq (rest : List CodePoint) : (s ++ rest).head? ≠ some (CodePoint.char '=') := by
    rw [List.head?_append, Option.mem_def.1 head]
    exact fun is => other (Option.some.inj is)
  rw [found, Option.getD_some]
  simp only [unaryOperators, List.mem_cons, Prod.mk.injEq, List.not_mem_nil, or_false] at mem
  rcases mem with ⟨rfl, rfl⟩ | ⟨rfl, rfl⟩
  · exact operand.symbol rfl fun rest => ⟨fun _ => noEq rest, fun is => absurd is (by decide)⟩
  · exact operand.symbol rfl fun rest => IsSingle.alone (by decide) _

end Lexeme

namespace Node

/-! ## Expressions -/

theorem head_of_isWord {text : Text} (h : isWord text) : ∃ c ∈ text.toList.head?, c ≠ '=' := by
  unfold isWord at h
  split at h
  · cases h
  · next c cs chars =>
      rw [Bool.and_eq_true] at h
      rw [chars]
      exact ⟨c, rfl, ne_of_class h.1 rfl⟩

/-- The text of an expression starts with a character that makes no symbol longer. -/
theorem head_render (e : Node) (fits : e.fits .expression) (readable : e.isReadable) :
    ∃ c ∈ e.render.toList.head?, c ≠ '=' := by
  cases e with
  | ident tok name =>
      have name_ok : isName name := readable
      simp only [isName, Bool.and_eq_true] at name_ok
      exact head_of_isWord name_ok.1
  | int tok n =>
      simp only [Node.fits, Bool.and_eq_true, decide_eq_true_eq] at fits
      obtain ⟨m, rfl⟩ := Int.eq_ofNat_of_zero_le fits.1
      obtain ⟨c, cs, chars, digit, -⟩ := toList_repr m
      have text : (int tok m).render.toList = c :: cs := chars
      rw [text]
      exact ⟨c, rfl, ne_of_class digit rfl⟩
  | bool tok value =>
      cases value with
      | true => exact ⟨'t', by simp [render], by decide⟩
      | false => exact ⟨'f', by simp [render], by decide⟩
  | array => exact ⟨'[', by simp [render], by decide⟩
  | hash => exact ⟨'\x7b', by simp [render], by decide⟩
  | unary | binary | index => exact ⟨'(', by simp [render], by decide⟩
  | call tok callee arguments =>
      simp only [Node.fits, Bool.and_eq_true] at fits
      simp only [isReadable, Bool.and_eq_true] at readable
      obtain ⟨c, first, other⟩ := head_render callee fits.1 readable.1
      refine ⟨c, ?_, other⟩
      simp only [render, Text.toList_append, List.append_assoc, List.head?_append]
      rw [Option.mem_def.1 first]
      rfl
  | _ => first | cases readable | cases fits

theorem toList_commaSep_cons (text : Text) (texts : List Text) :
    (commaSep (text :: texts)).toList = text.toList ++
      if texts.isEmpty then [] else .char ',' :: .char ' ' :: (commaSep texts).toList := by
  cases texts with
  | nil => simp [commaSep]
  | cons t ts => simp [commaSep, Text.intercalate_cons_cons]

theorem isEmpty_renderAll (nodes : List Node) : (renderAll nodes).isEmpty = nodes.isEmpty := by
  cases nodes <;> rfl

theorem isEmpty_renderPairs (pairs : List (Node × Node)) :
    (renderPairs pairs).isEmpty = pairs.isEmpty := by
  cases pairs <;> rfl

theorem othersWords_eq (parens : Parens) (nodes : List Node) : othersWords parens nodes =
    if nodes.isEmpty then [] else Token.Kind.comma.word :: listWords parens nodes := by
  cases nodes <;> rfl

/-- The words of an expression in its canonical text. -/
abbrev exprWords (e : Node) : List Word :=
  parenthesized e.isOperation (e.words canonicalParens)

/-- Texts with commas between them. -/
theorem cuts_commaSep {text : Text} {texts : List Text} {ws us : List Word} {last : Bool}
    (first : Cuts text.toList ws) (others : Cuts (commaSep texts).toList us)
    (is : texts.isEmpty = last) :
    Cuts (commaSep (text :: texts)).toList
      (ws ++ if last then [] else Token.Kind.comma.word :: us) := by
  rw [toList_commaSep_cons, is]
  cases last with
  | true => simpa using first
  | false => exact first.separated rfl (by decide) others.blank

mutual

/-- The text of an expression is cut into its words. -/
theorem cuts_render (e : Node) (fits : e.fits .expression) (readable : e.isReadable) :
    Cuts e.render.toList e.exprWords := by
  cases e with
  | ident tok name => exact cuts_ident readable
  | int tok n =>
      simp only [Node.fits, Bool.and_eq_true, decide_eq_true_eq] at fits
      obtain ⟨m, rfl⟩ := Int.eq_ofNat_of_zero_le fits.1
      exact cuts_repr m
  | bool tok value =>
      cases value with
      | true =>
          have word : Cuts "true".toList [Token.Kind.kwTrue.word] :=
            cuts_keyword (by decide) (by decide) rfl
          exact word
      | false =>
          have word : Cuts "false".toList [Token.Kind.kwFalse.word] :=
            cuts_keyword (by decide) (by decide) rfl
          exact word
  | array tok es =>
      have inside := cuts_renderAll es fits readable
      have text : (array tok es).render.toList =
          .char '[' :: ((commaSep (renderAll es)).toList ++ [.char ']']) := by
        simp [render]
      rw [text]
      exact inside.bracketed rfl rfl (by decide)
  | hash tok ps =>
      have inside := cuts_renderPairs ps fits readable
      have text : (hash tok ps).render.toList =
          .char '\x7b' :: ((commaSep (renderPairs ps)).toList ++ [.char '\x7d']) := by
        simp [render]
      rw [text]
      exact inside.bracketed rfl rfl (by decide)
  | unary tok op e =>
      simp only [Node.fits, Bool.and_eq_true] at fits
      have operand := cuts_render e fits.2 readable
      have text : (unary tok op e).render.toList =
          .char '(' :: (op.toList ++ e.render.toList ++ [.char ')']) := by
        simp [render]
      rw [text]
      exact (operand.unary fits.1 (head_render e fits.2 readable)).bracketed rfl rfl (by decide)
  | binary tok l op r =>
      simp only [Node.fits, Bool.and_eq_true] at fits
      simp only [isReadable, Bool.and_eq_true] at readable
      have left := cuts_render l fits.1.2 readable.1
      have right := cuts_render r fits.2 readable.2
      have text : (binary tok l op r).render.toList =
          .char '(' :: (l.render.toList ++
            .char ' ' :: (op.toList ++ .char ' ' :: r.render.toList) ++ [.char ')']) := by
        simp [render]
      rw [text]
      exact (left.binary fits.1.1 right).bracketed rfl rfl (by decide)
  | call tok callee es =>
      simp only [Node.fits, Bool.and_eq_true] at fits
      simp only [isReadable, Bool.and_eq_true] at readable
      have function := cuts_render callee fits.1 readable.1
      have inside := cuts_renderAll es fits.2 readable.2
      have text : (call tok callee es).render.toList =
          callee.render.toList ++ .char '(' :: ((commaSep (renderAll es)).toList ++ [.char ')']) := by
        simp [render]
      rw [text]
      exact function.followed rfl (inside.bracketed rfl rfl (by decide))
  | index tok container position =>
      simp only [Node.fits, Bool.and_eq_true] at fits
      simp only [isReadable, Bool.and_eq_true] at readable
      have outside := cuts_render container fits.1 readable.1
      have inside := cuts_render position fits.2 readable.2
      have text : (index tok container position).render.toList = .char '(' ::
          (container.render.toList ++
            .char '[' :: (position.render.toList ++ [.char ']']) ++ [.char ')']) := by
        simp [render]
      rw [text]
      exact (outside.followed rfl (inside.bracketed rfl rfl (by decide))).bracketed rfl rfl
        (by decide)
  | _ => first | cases readable | cases fits

/-- The texts of expressions with commas between them are cut into the words of the list. -/
theorem cuts_renderAll (es : List Node) (fits : fitsAll .expression es)
    (readable : allReadable es) :
    Cuts (commaSep (renderAll es)).toList (listWords canonicalParens es) := by
  cases es with
  | nil => exact Cuts.nil
  | cons e es =>
      simp only [fitsAll, Bool.and_eq_true] at fits
      simp only [allReadable, Bool.and_eq_true] at readable
      have first := cuts_render e fits.1 readable.1
      have others := cuts_renderAll es fits.2 readable.2
      rw [listWords, othersWords_eq]
      exact cuts_commaSep first others (isEmpty_renderAll es)

/-- The texts of pairs with commas between them are cut into the words of the pairs. -/
theorem cuts_renderPairs (ps : List (Node × Node)) (fits : fitsPairs ps)
    (readable : pairsReadable ps) :
    Cuts (commaSep (renderPairs ps)).toList (pairsWords canonicalParens ps) := by
  cases ps with
  | nil => exact Cuts.nil
  | cons p ps =>
      obtain ⟨k, v⟩ := p
      simp only [fitsPairs, Bool.and_eq_true] at fits
      simp only [pairsReadable, Bool.and_eq_true] at readable
      have key := cuts_render k fits.1.1 readable.1.1
      have value := cuts_render v fits.1.2 readable.1.2
      have others := cuts_renderPairs ps fits.2 readable.2
      have text : (k.render ++ ":" ++ v.render).toList =
          k.render.toList ++ .char ':' :: v.render.toList := by
        simp
      have first : Cuts (k.render ++ ":" ++ v.render).toList
          (k.exprWords ++ Token.Kind.colon.word :: v.exprWords) := by
        rw [text]
        exact key.separated rfl (by decide) value
      have both := cuts_commaSep first others (isEmpty_renderPairs ps)
      rw [List.append_assoc, List.cons_append] at both
      exact both

end

/-! ## Statements -/

theorem contentText_eq {e : Node} (fits : e.fits .expression) (text : Text) :
    contentText e text = text := by
  cases e with
  | missing => cases fits
  | _ => rfl

/-- The text of a statement that is no expression is cut into its words in front of a semicolon. -/
theorem cuts_closed {s : Node} (fits : s.fits .statement) (readable : s.isReadable)
    (closed : s.isExprStmt = false) :
    ∃ text, s.render.toList = text ++ [.char ';'] ∧ Cuts text (s.words canonicalParens) := by
  cases s with
  | letStmt tok name value =>
      simp only [isReadable, Bool.and_eq_true] at readable
      have content := cuts_render value fits readable.2
      have assigned : Cuts (.char '=' :: .char ' ' :: value.render.toList)
          (Token.Kind.assign.word :: value.exprWords) :=
        content.blank.symbol rfl fun _ => ⟨fun _ => by simp, fun is => absurd is (by decide)⟩
      have named := (cuts_ident readable.1).followed rfl assigned.blank
      have keyword : Cuts "let".toList [Token.Kind.kwLet.word] :=
        cuts_keyword (by decide) (by decide) rfl
      refine ⟨_, ?_, keyword.followed rfl named.blank⟩
      simp [render, contentText_eq fits]
  | returnStmt tok value =>
      have content := cuts_render value fits readable
      have keyword : Cuts "return".toList [Token.Kind.kwReturn.word] :=
        cuts_keyword (by decide) (by decide) rfl
      refine ⟨_, ?_, keyword.followed rfl content.blank⟩
      simp [render, contentText_eq fits]
  | exprStmt => cases closed
  | _ => cases fits

/-- Statements whose text can be read back, where only the last one is an expression. -/
structure Canonical (statements : List Node) : Prop where
  fits : fitsAll .statement statements
  readable : allReadable statements
  closed : ∀ s ∈ statements.dropLast, s.isExprStmt = false

/-- What a first statement that is an expression stands in front of: nothing. -/
theorem Canonical.eq_nil {s : Node} {ss : List Node} (h : Canonical (s :: ss))
    (is : s.isExprStmt = true) : ss = [] := by
  cases ss with
  | nil => rfl
  | cons s' ss =>
      have closed := h.closed s (List.mem_cons_self ..)
      rw [is] at closed
      cases closed

theorem Canonical.tail {s : Node} {ss : List Node} (h : Canonical (s :: ss)) : Canonical ss where
  fits := (Bool.and_eq_true_iff.1 h.fits).2
  readable := (Bool.and_eq_true_iff.1 h.readable).2
  closed s' hs := by
    cases ss with
    | nil => cases hs
    | cons _ _ => exact h.closed s' (List.mem_cons_of_mem _ hs)

/-- The text of statements is cut into their words. -/
theorem cuts_statements {ss : List Node} (canonical : Canonical ss) :
    Cuts (Text.join (renderAll ss)).toList (stmtsWords canonicalParens ss) := by
  induction ss with
  | nil => exact Cuts.nil
  | cons s ss ih =>
      have others := ih canonical.tail
      have fits : s.fits .statement := (Bool.and_eq_true_iff.1 canonical.fits).1
      have readable : s.isReadable := (Bool.and_eq_true_iff.1 canonical.readable).1
      rw [renderAll, Text.join_cons, Text.toList_append, stmtsWords]
      -- An expression has no semicolon, but then it is the last statement.
      cases closed : s.isExprStmt with
      | true =>
          obtain rfl := canonical.eq_nil closed
          cases s with
          | exprStmt tok e =>
              have content : Cuts e.render.toList ((exprStmt tok e).words canonicalParens) :=
                cuts_render e fits readable
              simpa [render, contentText_eq fits, renderAll, isExprStmt] using content
          | _ => cases closed
      | false =>
          obtain ⟨text, chars, cut⟩ := cuts_closed fits readable closed
          rw [chars, List.append_assoc]
          exact cut.separated rfl (by decide) others

/-- The canonical text of a program is cut into the words of the program. -/
theorem words_render {ss : List Node} (canonical : Canonical ss) :
    Lexeme.words (program ss).render.toList = (program ss).words canonicalParens :=
  (cuts_statements canonical).words_eq

end Node

end MonkeyLang
