import MonkeyLang.Eval
import MonkeyLang.Proofs.Evaluation.Copied

/-!
# Evaluation behind other programs

The evaluation of a tree behind other programs comes to the same as by itself, under other numbers:
the same faults and output, and values that are like each other. What is asked is that no name in
the tree is bound by the other programs.

* `Renumbering.form_paired` says so of each form, if it is so of the trees inside.
* `Renumbering.evaluate_paired` is the result for all trees.
-/

namespace MonkeyLang

namespace Renumbering

open Eval

variable {T : Renumbering} {b b' : Nat}

/-! ## Names and new values -/

theorem name_paired {text : Text} (free : T.Free text) {scope : ScopeId} (met : T.Met scope) :
    T.Paired b (name scope text) (name (T.scope scope) text) fun b' => Value.Like T b' := by
  refine .get_bind fun m m' states => ?_
  have found := states.store.lookup free met
  generalize m.store.lookup scope text = v?, m'.store.lookup (T.scope scope) text = v'? at found ⊢
  cases found with
  | none =>
      cases Builtin.ofName? text with
      | some f => exact .pure .builtin
      | none => exact fail_paired
  | some like =>
      cases like with
      | error => exact fail_paired
      | array length each => exact .pure (.array length each)
      | hash length digests keys values => exact .pure (.hash length digests keys values)
      | _ => exact .pure (by constructor <;> assumption)

theorem keep_paired {node node' : Node} (like : T.Trees b node node') :
    T.Paired b (keep node) (keep node') fun b' => T.Trees b' := by
  unfold keep
  rw [like.isCompound_eq]
  split
  · exact (newPiece_paired like).bind fun _ _ _ _ place => .pure (.piece place.2)
  · exact .pure like

theorem keepBody_paired {node node' : Node} (like : T.Trees b node node') :
    T.Paired b (keepBody node) (keepBody node') fun b' => T.Trees b' := by
  cases like with
  | fnLit t length each body =>
      refine (keep_paired body).bind fun _ _ _ more kept => .pure ?_
      exact .fnLit t length (fun p mem => Trees.mono (each p mem) more) kept
  | _ => exact .pure (by constructor <;> assumption)

theorem newQuote_paired {node node' : Node} (like : T.Trees b node node') :
    T.Paired b (newQuote node) (newQuote node') fun b' => Value.Like T b' := by
  refine (transformM_paired (fun like => keepBody_paired like) like).bind fun _ _ _ _ like => ?_
  refine (keep_paired like).bind fun _ _ _ _ like => ?_
  refine newSerial_paired.bind fun _ serial serial' more same => .pure ?_
  subst same
  exact .quote (Trees.mono like more)

theorem newArray_paired {vs vs' : List Value} (likes : List.Forall₂ (Value.Like T b) vs vs') :
    T.Paired b (newArray vs) (newArray vs') fun b' => Value.Like T b' := by
  refine newSerial_paired.bind fun _ serial serial' more same => .pure ?_
  subst same
  exact .ofElements (Value.Like.all_mono likes more)

/-! ## Builtin functions -/

section

variable {vs vs' : List Value}

theorem single_like (likes : List.Forall₂ (Value.Like T b) vs vs') :
    Except.Like (Value.Like T b) (Builtin.single vs) (Builtin.single vs') := by
  match likes with
  | .nil => rfl
  | .cons like .nil => exact like
  | .cons _ (.cons _ rest) => exact congrArg (Fault.builtinArity 1 <| · + 2) rest.length_eq

theorem elementsFor_like (f : Builtin) {v v' : Value} (like : v.Like T b v') :
    Except.Like (List.Forall₂ (Value.Like T b)) (f.elementsFor v) (f.elementsFor v') := by
  cases like with
  | array length each => exact Value.Like.all_of_zip length each
  | _ => rfl

theorem singleArray_paired (f : Builtin) (likes : List.Forall₂ (Value.Like T b) vs vs') :
    T.Paired b (f.singleArray vs) (f.singleArray vs') fun b' =>
      List.Forall₂ (Value.Like T b') := by
  refine (ofExcept_paired (single_like likes)).bind fun b₁ v v' more like => ?_
  refine (ofExcept_paired (elementsFor_like f like)).mono fun b₂ _ _ more' likes => ?_
  exact Value.Like.all_mono likes (Nat.le_trans more more')

theorem prints_paired (likes : List.Forall₂ (Value.Like T b) vs vs') :
    T.Paired b (vs.forM print) (vs'.forM print) fun _ _ _ => True := by
  induction vs generalizing b vs' with
  | nil =>
      cases likes
      exact .pure trivial
  | cons v vs ih =>
      cases likes with
      | cons like likes =>
        exact (print_paired like).bind fun _ _ _ more _ => ih (Value.Like.all_mono likes more)

theorem getLastD_like {d d' : Value} (likes : List.Forall₂ (Value.Like T b) vs vs')
    (default : d.Like T b d') : (vs.getLastD d).Like T b (vs'.getLastD d') := by
  induction likes generalizing d d' with
  | nil => exact default
  | cons like _ ih =>
      rw [List.getLastD_cons, List.getLastD_cons]
      exact ih like

theorem length_like {v v' : Value} (like : v.Like T b v') :
    Except.Like (Value.Like T b) (Builtin.length v) (Builtin.length v') := by
  cases like with
  | array length _ =>
      unfold Builtin.length
      dsimp only
      rw [length]
      exact .int
  | str => exact .int
  | _ => rfl

/-- Builtin functions make such values of values that are like each other. -/
theorem builtin_paired (f : Builtin) (likes : List.Forall₂ (Value.Like T b) vs vs') :
    T.Paired b (f.call vs) (f.call vs') fun b' => Value.Like T b' := by
  unfold Builtin.call
  cases f with
  | len =>
      refine (ofExcept_paired (single_like likes)).bind fun b₁ v v' more like => ?_
      exact value_paired (length_like (like.mono more))
  | first =>
      refine (singleArray_paired .first likes).bind fun b₁ es es' _ likes => .pure ?_
      cases likes with
      | nil => exact .null
      | cons like _ => exact like
  | last =>
      exact (singleArray_paired .last likes).bind fun b₁ es es' _ likes =>
        .pure (getLastD_like likes .null)
  | rest =>
      refine (singleArray_paired .rest likes).bind fun b₁ es es' _ likes => ?_
      cases likes with
      | nil => exact .pure .null
      | cons _ likes => exact newArray_paired likes
  | push =>
      match likes with
      | .cons like (.cons last .nil) =>
          refine (ofExcept_paired (elementsFor_like .push like)).bind fun b₁ es es' more likes => ?_
          refine newArray_paired (List.rel_append ?_ ?_)
          · exact Value.Like.all_mono likes more
          · exact .cons (last.mono more) .nil
      | .nil => exact fail_paired
      | .cons _ .nil => exact fail_paired
      | .cons _ (.cons _ (.cons _ rest)) =>
          simp only [List.length_cons, rest.length_eq]
          exact fail_paired
  | puts => exact (prints_paired likes).bind fun _ _ _ _ _ => .pure .null

end

/-! ## Sequences -/

/-- Evaluators come to the same on trees that are like each other. -/
def Agree (T : Renumbering) (run run' : Node → Eval Value) : Prop :=
  ∀ {b : Nat} {node node' : Node}, T.Trees b node node' →
    T.Paired b (run node) (run' node') fun b' => Value.Like T b'

section

variable {run run' : Node → Eval Value} {nodes nodes' : List Node}

theorem sequence_paired (agree : T.Agree run run')
    (likes : List.Forall₂ (T.Trees b) nodes nodes') :
    T.Paired b (sequence run nodes) (sequence run' nodes') fun b' => Value.Like T b' := by
  induction nodes generalizing b nodes' with
  | nil =>
      cases likes
      exact .pure .null
  | cons node nodes ih =>
      match likes with
      | .cons like .nil => exact agree like
      | .cons like (.cons next rest) =>
        exact (agree like).bind fun _ _ _ more _ => ih (treesAll_mono (.cons next rest) more)

theorem values_paired (agree : T.Agree run run')
    (likes : List.Forall₂ (T.Trees b) nodes nodes') :
    T.Paired b (values run nodes) (values run' nodes') fun b' =>
      List.Forall₂ (Value.Like T b') := by
  induction nodes generalizing b nodes' with
  | nil =>
      cases likes
      exact .pure .nil
  | cons node nodes ih =>
      cases likes with
      | cons like likes =>
        refine (agree like).bind fun _ _ _ more value => ?_
        refine (ih (treesAll_mono likes more)).bind fun _ _ _ more' values => .pure ?_
        exact .cons (value.mono more') values

theorem undigested_paired {α : Type} {post : Nat → α → α → Prop} {v v' : Value}
    (like : v.Like T b v') :
    T.Paired b (throw (Operator.undigested v)) (throw (Operator.undigested v')) post := by
  rw [Operator.undigested_like like]
  rcases Operator.undigested_cases v' with halts | fails
  · rw [halts]
    exact halt_paired
  · rw [fails]
    exact fail_paired

theorem index_paired {v v' w w' : Value} (like : v.Like T b v') (like' : w.Like T b w') :
    T.Paired b (ofExit (Operator.index v w)) (ofExit (Operator.index v' w')) fun b' =>
      Value.Like T b' := by
  cases like with
  | array length each =>
      exact .pure (Operator.element_like (Value.Like.all_of_zip length each) like')
  | hash length digests keys values =>
      unfold Operator.index
      dsimp only
      rw [like'.hashKey?_eq]
      cases w'.hashKey? with
      | some key =>
          exact .pure (Operator.entry_like (Value.Like.entries_of_zip length digests keys values) key)
      | none => exact undigested_paired like'
  | _ => exact fail_paired

theorem entries_paired (agree : T.Agree run run') {pairs pairs' : List (Node × Node)}
    {done done' : Assoc HashKey (Value × Value)} (before : Value.LikeEntries T b done done')
    (likes : List.Forall₂ (fun p p' => T.Trees b p.1 p'.1 ∧ T.Trees b p.2 p'.2) pairs pairs') :
    T.Paired b (entries run done pairs) (entries run' done' pairs') fun b' =>
      Value.LikeEntries T b' := by
  induction pairs generalizing b pairs' done done' with
  | nil =>
      cases likes
      exact .pure before
  | cons p pairs ih =>
      cases likes with
      | cons like likes =>
        obtain ⟨keyNode, valueNode⟩ := like
        refine (agree keyNode).bind fun b₁ key key' more₁ keys => ?_
        rw [keys.hashKey?_eq]
        cases key'.hashKey? with
        | none => exact undigested_paired keys
        | some digest =>
            refine (agree (Trees.mono valueNode more₁)).bind fun b₂ v v' more₂ values => ?_
            have more := Nat.le_trans more₁ more₂
            refine ih (Assoc.Like.insert ?_ ⟨keys.mono more₂, values⟩)
              (likes.imp fun _ _ both => ?_)
            · exact Value.Like.entries_mono before more
            · exact both.imp (Trees.mono · more) (Trees.mono · more)

/-! ## Conditionals -/

theorem choose_paired (agree : T.Agree run run') {condition condition' : Node}
    {consequence consequence' alternative alternative' : Node}
    (conditions : T.Trees b condition condition')
    (consequences : T.Trees b consequence consequence')
    (alternatives : T.Trees b alternative alternative') :
    T.Paired b (choose run condition consequence alternative)
      (choose run' condition' consequence' alternative') fun b' => Value.Like T b' := by
  refine (agree conditions).bind fun b₁ v v' more like => ?_
  rw [like.isTruthy_eq, alternatives.isMissing_eq]
  split
  · exact agree (Trees.mono consequences more)
  · split
    · exact .pure .null
    · exact agree (Trees.mono alternatives more)

theorem catchReturn_paired {c c' : Eval Value}
    (h : T.Paired b c c' fun b' => Value.Like T b') :
    T.Paired b (catchReturn c) (catchReturn c') fun b' => Value.Like T b' := by
  refine h.tryCatch fun b₁ exit exit' _ exits => ?_
  cases exits with
  | returned like => exact .pure like
  | failed => exact .throw .failed
  | halted => exact .throw .halted

/-! ## Quotations -/

theorem unquoted_paired (agree : T.Agree run run') {argument argument' : Node}
    (like : T.Trees b argument argument') :
    T.Paired b (Quote.unquoted run argument) (Quote.unquoted run' argument') fun b' =>
      Value.Like T b' := by
  refine (agree like).tryCatch fun b₁ exit exit' _ exits => ?_
  cases exits with
  | returned _ => exact fail_paired
  | failed => exact .throw .failed
  | halted => exact .throw .halted

/-- The literals of values are like each other, or end in the same way. -/
theorem literal_like {v v' : Value} (like : v.Like T b v') :
    (∃ node node', Quote.literal v = .ok node ∧ Quote.literal v' = .ok node' ∧
      T.Trees b node node') ∨
    ∃ exit, Quote.literal v = .error exit ∧ Quote.literal v' = .error exit ∧
      Exit.Like T b exit exit := by
  cases like with
  | @bool x =>
      refine .inl ⟨_, _, rfl, rfl, ?_⟩
      unfold Quote.boolLiteral
      split <;> exact .bool rfl
  | @int n =>
      unfold Quote.literal
      dsimp only
      cases Decimal.write? n with
      | some text => exact .inl ⟨_, _, rfl, rfl, .int rfl⟩
      | none => exact .inr ⟨_, rfl, rfl, .halted⟩
  | quote like => exact .inl ⟨_, _, rfl, rfl, like⟩
  | _ => exact .inr ⟨_, rfl, rfl, .failed⟩

theorem substitute?_paired (agree : T.Agree run run') {node node' : Node}
    (like : T.Trees b node node') :
    T.Paired b (Quote.substitute? run node) (Quote.substitute? run' node') fun b' =>
      Option.Rel (T.Trees b') := by
  cases like with
  | call t callee length each =>
      cases callee with
      | @ident _ _ name _ _ =>
        unfold Quote.substitute?
        dsimp only
        split
        · match Node.LikeAll.of_zip length each with
          | .cons argument .nil =>
            refine (unquoted_paired agree argument).bind fun b₁ v v' _ like => ?_
            rcases literal_like like with ⟨node, node', literal, literal', like⟩ |
              ⟨exit, literal, literal', like⟩
            · rw [literal, literal']
              exact .pure (.some like)
            · rw [literal, literal']
              exact .throw like
          | .nil => exact fail_paired
          | .cons _ (.cons _ rest) =>
            simp only [List.length_cons, rest.length_eq]
            exact fail_paired
        · exact .pure .none
      | _ => exact .pure .none
  | _ => exact .pure .none

/-- What takes the places of nodes that are like each other is so, too. -/
theorem substituted_paired (agree : T.Agree run run') {node node' kept kept' : Node}
    (like : T.Trees b node node') (keptLike : T.Trees b kept kept') :
    T.Paired b (do return (← Quote.substitute? run node).getD kept)
      (do return (← Quote.substitute? run' node').getD kept') fun b' => T.Trees b' := by
  refine (substitute?_paired agree like).bind fun b₁ result result' more likes => .pure ?_
  cases likes with
  | none => exact Trees.mono keptLike more
  | some like => exact like

theorem unquote_of_ne {depth : Nat} {node : Node} (other : ∀ id, node ≠ .piece id) :
    Quote.unquote run depth node = do return (← Quote.substitute? run node).getD node := by
  unfold Quote.unquote
  split
  · exact absurd rfl (other _)
  · exact absurd rfl (other _)
  · rfl

theorem unquote_paired (agree : T.Agree run run') (depth : Nat) {node node' : Node}
    (like : T.Trees b node node') :
    T.Paired b (Quote.unquote run depth node) (Quote.unquote run' depth node') fun b' =>
      T.Trees b' := by
  induction depth generalizing b node node' with
  | zero =>
      rcases like.piece_or with ⟨id, id', rfl, rfl, -⟩ | ⟨other, other'⟩
      · exact halt_paired
      · rw [unquote_of_ne other, unquote_of_ne other']
        exact substituted_paired agree like like
  | succ depth ih =>
      rcases like.piece_or with ⟨id, id', rfl, rfl, place⟩ | ⟨other, other'⟩
      · refine (piece_paired place).bind fun b₁ held held' more₁ like => ?_
        refine (belowM_paired (fun like => ih like) like).bind
          fun b₂ below below' more₂ like => ?_
        have place := place.mono (Nat.le_trans more₁ more₂)
        refine (setPiece_paired place like).bind fun b₃ _ _ more₃ _ => ?_
        exact substituted_paired agree (Trees.mono like more₃) (.piece (place.mono more₃))
      · rw [unquote_of_ne other, unquote_of_ne other']
        exact substituted_paired agree like like

theorem quote_paired (agree : T.Agree run run') (depth : Nat)
    (likes : List.Forall₂ (T.Trees b) nodes nodes') :
    T.Paired b (Quote.quote run depth nodes) (Quote.quote run' depth nodes') fun b' =>
      Value.Like T b' := by
  match likes with
  | .cons like .nil =>
      refine (copy_paired like).bind fun _ _ _ _ like => ?_
      have unquoted := transformM_paired (fun like => unquote_paired agree depth like) like
      exact unquoted.bind fun _ _ _ _ like => newQuote_paired like
  | .nil => exact fail_paired
  | .cons _ (.cons _ rest) =>
      unfold Quote.quote
      simp only [List.length_cons, rest.length_eq]
      exact fail_paired

end

/-! ## Calls -/

section

variable {run run' : Node → ScopeId → Eval Value}

theorem arguments_like {ps ps' : List Node} {vs vs' : List Value}
    (parameters : List.Forall₂ (T.Trees b) ps ps') (values : List.Forall₂ (Value.Like T b) vs vs') :
    (Eval.arguments ps vs).Like (Value.Like T b) (Eval.arguments ps' vs') := by
  refine Assoc.Like.ofList ?_
  induction parameters generalizing vs vs' with
  | nil => exact .nil
  | cons like _ ih =>
      cases values with
      | nil => exact .nil
      | cons value values => exact .cons ⟨like.render_eq, value⟩ (ih values)

theorem apply_paired (agree : ∀ e, T.Met e → T.Agree (run · e) (run' · (T.scope e)))
    {callee callee' : Value} {vs vs' : List Value} (like : callee.Like T b callee')
    (values : List.Forall₂ (Value.Like T b) vs vs') :
    T.Paired b (apply run callee vs) (apply run' callee' vs') fun b' => Value.Like T b' := by
  cases like with
  | @function serial ps ps' body body' scope parameters bodies met =>
      unfold apply
      dsimp only
      rw [parameters.length_eq, values.length_eq]
      split
      · exact fail_paired
      · refine (newScope_paired met (arguments_like parameters values)).bind
          fun b₁ inner inner' more ⟨metInner, same⟩ => ?_
        subst same
        exact catchReturn_paired (agree inner metInner (Trees.mono bodies more))
  | builtin => exact builtin_paired _ values
  | _ => exact fail_paired

theorem call_paired (agree : ∀ e, T.Met e → T.Agree (run · e) (run' · (T.scope e))) (depth : Nat)
    {scope : ScopeId} (met : T.Met scope) {callee callee' : Node} {as as' : List Node}
    (like : T.Trees b callee callee') (likes : List.Forall₂ (T.Trees b) as as') :
    T.Paired b (call depth run scope callee as) (call depth run' (T.scope scope) callee' as')
      fun b' => Value.Like T b' := by
  unfold call
  rw [like.isIdent_eq]
  split
  · exact quote_paired (agree scope met) depth likes
  · refine (agree scope met like).bind fun b₁ f f' more function => ?_
    refine (values_paired (agree scope met) (treesAll_mono likes more)).bind
      fun b₂ vs vs' more' values => ?_
    exact apply_paired agree (function.mono more') values

/-! ## Forms -/

/-- The forms of evaluation come to the same on trees that are like each other. -/
theorem form_paired (agree : ∀ e, T.Met e → T.Agree (run · e) (run' · (T.scope e))) (depth : Nat)
    {node node' : Node} (like : T.Trees b node node') {scope : ScopeId} (met : T.Met scope) :
    T.Paired b (form depth run node scope) (form depth run' node' (T.scope scope)) fun b' =>
      Value.Like T b' := by
  have inner := @agree scope met
  cases like with
  | missing => exact fail_paired
  | program length each =>
      exact catchReturn_paired (sequence_paired inner (Node.LikeAll.of_zip length each))
  | block _ length each => exact sequence_paired inner (Node.LikeAll.of_zip length each)
  | letStmt _ _ free value =>
      refine (inner value).bind fun b₁ v v' _ like => ?_
      exact (bind_paired free scope like).bind fun _ _ _ _ _ => .pure .null
  | returnStmt _ value => exact (inner value).bind fun _ _ _ _ like => .throw (.returned like)
  | exprStmt _ value => exact inner value
  | ident _ free => exact name_paired free met
  | int => exact .pure .int
  | bool => exact .pure .bool
  | str => exact .pure .str
  | array _ length each =>
      exact (values_paired inner (Node.LikeAll.of_zip length each)).bind fun _ _ _ _ likes =>
        newArray_paired likes
  | hash _ length keys values =>
      have pairs : List.Forall₂ (fun p p' : Node × Node => T.Trees b p.1 p'.1 ∧
          T.Trees b p.2 p'.2) _ _ :=
        List.forall₂_iff_zip.2 ⟨length, fun mem => ⟨keys _ mem, values _ mem⟩⟩
      refine (entries_paired inner .nil pairs).bind fun b₁ es es' _ likes => ?_
      refine newSerial_paired.bind fun b₂ serial serial' more same => .pure ?_
      subst same
      exact .ofEntries (Value.Like.entries_mono likes more)
  | unary _ operand =>
      exact (inner operand).bind fun _ _ _ _ like => value_paired (Operator.unary_like _ like)
  | binary _ left right =>
      refine (inner left).bind fun b₁ l l' more like => ?_
      refine (inner (Trees.mono right more)).bind fun b₂ r r' more' like' => ?_
      exact value_paired (Operator.binary_like _ (like.mono more') like')
  | ifElse _ condition consequence alternative =>
      exact choose_paired inner condition consequence alternative
  | fnLit _ length each body =>
      refine newSerial_paired.bind fun b₁ serial serial' more same => .pure ?_
      subst same
      exact .function (treesAll_mono (Node.LikeAll.of_zip length each) more) (Trees.mono body more)
        met
  | macroLit => exact fail_paired
  | call _ callee length each =>
      exact call_paired agree depth met callee (Node.LikeAll.of_zip length each)
  | index _ container position =>
      refine (inner container).bind fun b₁ l l' more like => ?_
      refine (inner (Trees.mono position more)).bind fun b₂ r r' more' like' => ?_
      exact index_paired (like.mono more') like'
  | piece place => exact (piece_paired place).bind fun _ _ _ _ like => inner like

end

/-- The evaluation of a tree comes to the same behind other programs as by itself. -/
theorem evaluate_paired (depth : Nat) {scope : ScopeId} (met : T.Met scope) :
    T.Agree (evaluate depth · scope) (evaluate depth · (T.scope scope)) := by
  -- The trees inside a form are evaluated one level deeper, so the induction is on the depth.
  induction depth generalizing scope with
  | zero => exact fun _ => halt_paired
  | succ depth ih => exact fun like => form_paired (fun _ met => ih met) depth like met

end Renumbering

end MonkeyLang
