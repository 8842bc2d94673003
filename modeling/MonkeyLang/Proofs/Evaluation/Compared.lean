import MonkeyLang.Proofs.Evaluation.Alike
import MonkeyLang.Proofs.Evaluation.Kept

/-!
# Forms of evaluation side by side

If two evaluators come to the same for proper trees, so do the forms of evaluation over them, and
what these come to is proper again. For the evaluation of one tree by itself this says that no hole
is ever met.

* `Eval.Terms.quote_alike` says so of quotations, where pieces of program are copied and changed.
* `Eval.Terms.form_alike` is the result for all forms.
-/

namespace MonkeyLang

open Grammar

theorem Decimal.isOverlong_of_write? {n : Int} {text : String} (h : write? n = some text) :
    isOverlong n = false := by
  unfold write? at h
  split at h
  · cases h
  · next short => exact Bool.eq_false_iff.2 short

namespace Eval.Terms

variable (T : Eval.Terms) {roles : Roles}

section

variable {run run' : Node → Eval Value}

/-! ## Sequences -/

theorem sequence_alike (agree : T.Agree run run') {category : Category} {statements : List Node}
    (proper : ∀ s ∈ statements, s.Proper roles category) :
    T.Alike roles (sequence run statements) (sequence run' statements) fun roles' v =>
      v.Proper roles' := by
  induction statements generalizing roles with
  | nil => exact .pure .null
  | cons s others ih =>
      have first := agree roles category s (proper s (.head _))
      cases others with
      | nil => exact first.mono fun _ _ _ h => h.1
      | cons s' others =>
          exact first.bind fun _ _ more _ => ih fun w mem => (proper w (.tail _ mem)).mono more

theorem values_alike (agree : T.Agree run run') {nodes : List Node}
    (proper : ∀ n ∈ nodes, n.Proper roles .expression) :
    T.Alike roles (values run nodes) (values run' nodes) fun roles' vs =>
      ∀ v ∈ vs, v.Proper roles' ∧ T.Fine v := by
  induction nodes generalizing roles with
  | nil => exact .pure fun _ none => nomatch none
  | cons n others ih =>
      refine (agree roles _ n (proper n (.head _))).bind fun roles₁ v more₁ first => ?_
      refine (ih fun w mem => (proper w (.tail _ mem)).mono more₁).bind fun roles₂ vs more₂ later =>
        .pure ?_
      exact List.forall_mem_cons.2 ⟨⟨first.1.mono more₂, first.2⟩, later⟩

theorem entries_alike (agree : T.Agree run run') {done : Assoc HashKey (Value × Value)}
    {pairs : List (Node × Node)} (before : ∀ entry ∈ done, entry.2.1.Proper roles ∧
      entry.2.2.Proper roles)
    (proper : ∀ p ∈ pairs, p.1.Proper roles .expression ∧ p.2.Proper roles .expression) :
    T.Alike roles (entries run done pairs) (entries run' done pairs) fun roles' entries =>
      ∀ entry ∈ entries, entry.2.1.Proper roles' ∧ entry.2.2.Proper roles' := by
  induction pairs generalizing roles done with
  | nil => exact .pure before
  | cons p others ih =>
      have here := proper p (.head _)
      refine (agree roles _ p.1 here.1).bind fun roles₁ key more₁ keyProper => ?_
      cases keyed : key.hashKey? with
      | none => exact T.undigested_alike keyProper.2 keyed
      | some digest =>
          refine (agree roles₁ _ p.2 (here.2.mono more₁)).bind fun roles₂ v more₂ valueProper => ?_
          have more := more₁.trans more₂
          refine ih (fun entry mem => ?_) fun w mem =>
            (proper w (.tail _ mem)).imp (.mono · more) (.mono · more)
          rcases Assoc.mem_insert mem with old | new
          · exact (before entry old).imp (.mono · more) (.mono · more)
          · rw [new]
            exact ⟨keyProper.1.mono more₂, valueProper.1⟩

/-! ## Conditionals -/

theorem choose_alike (agree : T.Agree run run') {condition consequence alternative : Node}
    (conditionProper : condition.Proper roles .expression)
    (consequenceProper : consequence.Proper roles .block)
    (alternativeProper : alternative = .missing ∨ alternative.Proper roles .block) :
    T.Alike roles (choose run condition consequence alternative)
      (choose run' condition consequence alternative) fun roles' v => v.Proper roles' := by
  refine (agree roles _ _ conditionProper).bind fun roles₁ v more _ => ?_
  cases v.isTruthy with
  | true => exact (agree roles₁ _ _ (consequenceProper.mono more)).mono fun _ _ _ h => h.1
  | false =>
      rcases alternativeProper with rfl | proper
      · exact .pure .null
      · simp only [proper.isMissing_eq_false]
        exact (agree roles₁ _ _ (proper.mono more)).mono fun _ _ _ h => h.1

theorem catchReturn_alike {c c' : Eval Value}
    (h : T.Alike roles c c' fun roles' v => v.Proper roles') :
    T.Alike roles (catchReturn c) (catchReturn c') fun roles' v => v.Proper roles' := by
  refine h.tryCatch fun roles₁ exit _ exits => ?_
  cases exit with
  | returned v => exact .pure exits.1
  | failed fault => exact .throw exits
  | halted halt => exact .throw exits

/-! ## Quotations -/

/-- Every copy has the role of the piece it is a copy of. -/
def KeepsRoles (roles : Roles) (copies : Quote.Copies) : Prop :=
  ∀ id copy, copies.get? id = some copy →
    ∃ category, roles id = some category ∧ roles copy = some category

theorem KeepsRoles.mono {roles' : Roles} {copies : Quote.Copies} (h : KeepsRoles roles copies)
    (more : roles.Le roles') : KeepsRoles roles' copies := by
  intro id copy found
  obtain ⟨category, role, role'⟩ := h id copy found
  exact ⟨category, more _ _ role, more _ _ role'⟩

/-- Copying is alike, if copies keep their roles. -/
def Copying {α : Type} (roles : Roles) (c c' : StateT Quote.Copies Eval α)
    (post : Roles → α → Prop) : Prop :=
  ∀ copies, KeepsRoles roles copies →
    T.Alike roles (c.run copies) (c'.run copies) fun roles' result =>
      post roles' result.1 ∧ KeepsRoles roles' result.2

theorem copying_tracks : Tracks fun _ roles c c' post => T.Copying roles c c' post where
  pure h _ keeps := .pure ⟨h, keeps⟩
  bind first then_ copies keeps :=
    (first copies keeps).bind fun _ result more h => then_ _ result.1 more h.1 result.2 h.2

theorem copying_lift {α : Type} {c c' : Eval α} {post : Roles → α → Prop}
    (h : T.Alike roles c c' post) : T.Copying roles (liftM c) (liftM c') post :=
  fun _ keeps => h.bind fun _ _ more holds => .pure ⟨holds, keeps.mono more⟩

theorem copying_get : T.Copying roles get get KeepsRoles :=
  fun _ keeps => .pure ⟨keeps, keeps⟩

theorem copying_insert {id copy : PieceId} {category : Category} (role : roles id = some category)
    (role' : roles copy = some category) :
    T.Copying roles (modify (·.insert id copy)) (modify (·.insert id copy)) fun _ _ => True := by
  refine fun copies keeps => .pure ⟨trivial, fun other copy' found => ?_⟩
  rw [Assoc.get?_insert] at found
  split at found
  · next same =>
      cases found
      exact ⟨category, same ▸ role, role'⟩
  · exact keeps other copy' found

theorem copyPlace_alike (depth : Nat) {category : Category} {node : Node}
    (proper : node.Proper roles category) :
    T.Copying roles (Quote.copyPlace depth node) (Quote.copyPlace depth node) fun roles' result =>
      result.Proper roles' category := by
  have steps := T.copying_tracks
  -- The copies made so far carry the induction: each has the role of the piece it is a copy of.
  induction depth generalizing roles category node with
  | zero => exact steps.pure proper
  | succ depth ih =>
      cases proper with
      | @piece id _ role notParameter =>
          refine steps.bind T.copying_get fun roles₁ copies more₁ keeps => ?_
          cases found : Assoc.get? id copies with
          | some copy =>
              obtain ⟨category', ofPiece, ofCopy⟩ := keeps id copy found
              rw [more₁ _ _ role] at ofPiece
              cases ofPiece
              exact steps.pure (.piece ofCopy notParameter)
          | none =>
              refine steps.bind (T.copying_lift (T.piece_alike (more₁ _ _ role)))
                fun roles₂ node more₂ nodeProper => ?_
              refine steps.bind (T.copying_lift (T.newPiece_alike nodeProper))
                fun roles₃ copy more₃ ofCopy => ?_
              -- The copy begins as the piece itself, so it is proper while it is still in the making.
              have ofPiece := more₃ _ _ (more₂ _ _ (more₁ _ _ role))
              refine steps.bind (T.copying_insert ofPiece ofCopy) fun roles₄ _ more₄ _ => ?_
              refine steps.bind
                (steps.belowM (fun _ _ _ h => ih h) node (nodeProper.mono (more₃.trans more₄)))
                fun roles₅ below more₅ belowProper => ?_
              have ofCopy := more₅ _ _ (more₄ _ _ ofCopy)
              refine steps.bind (T.copying_lift (T.setPiece_alike ofCopy belowProper))
                fun roles₆ _ more₆ _ => ?_
              exact steps.pure (.piece (more₆ _ _ ofCopy) notParameter)
      | _ => exact steps.pure (by constructor <;> assumption)

theorem copy_alike {category : Category} {node : Node} (proper : node.Proper roles category) :
    T.Alike roles (Quote.copy node) (Quote.copy node) fun roles' result =>
      result.Proper roles' category := by
  refine .get_bind (fun _ _ => rfl) fun m _ => ?_
  have copied := T.copying_tracks.transformM (f := Quote.copyPlace (m.pieces.nextId + 1))
    (fun _ _ _ h => T.copyPlace_alike _ h) proper [] fun _ _ found => nomatch found
  exact copied.bind fun _ result _ h => .pure h.1

theorem unquoted_alike (agree : T.Agree run run') {argument : Node}
    (proper : argument.Proper roles .expression) :
    T.Alike roles (Quote.unquoted run argument) (Quote.unquoted run' argument) fun roles' v =>
      v.Proper roles' ∧ T.Fine v := by
  refine (agree roles _ argument proper).tryCatch fun roles₁ exit _ exits => ?_
  cases exit with
  | returned v => exact T.fail_alike nofun
  | failed fault => exact .throw exits
  | halted halt => exact .throw exits

/-- The literal of a proper value is proper. -/
theorem literal_proper {v : Value} {node : Node} (proper : v.Proper roles)
    (literal : Quote.literal v = .ok node) : node.Proper roles .expression := by
  unfold Quote.literal at literal
  cases proper with
  | bool =>
      cases literal
      unfold Quote.boolLiteral
      split <;> exact .bool
  | int =>
      dsimp only at literal
      split at literal
      · next written =>
        cases literal
        exact .int (Decimal.isOverlong_of_write? written)
      · cases literal
  | quote proper =>
      cases literal
      exact proper
  | _ => cases literal

theorem literal_exits {v : Value} {exit : Exit} (proper : v.Proper roles) (fine : T.Fine v)
    (literal : Quote.literal v = .error exit) : T.Exits roles exit := by
  cases exit with
  | halted halt => exact T.quoted fine literal
  | failed fault =>
      rintro rfl
      unfold Quote.literal at literal
      cases proper with
      | int =>
          dsimp only at literal
          split at literal <;> cases literal
      | _ => cases literal
  | returned w => exact absurd literal (Eval.Invariant.literal_ne_returned v w)

theorem substitute?_alike (agree : T.Agree run run') {category : Category} {node : Node}
    (proper : node.Proper roles category) :
    T.Alike roles (Quote.substitute? run node) (Quote.substitute? run' node) fun roles' result =>
      ∀ n : Node, result = some n → n.Proper roles' category := by
  have stays {roles : Roles} {c : Category} :
      T.Alike roles (pure none) (pure none) fun roles' result =>
        ∀ n : Node, result = some n → n.Proper roles' c :=
    .pure fun _ some => nomatch some
  unfold Quote.substitute?
  split
  · next t u name arguments =>
    cases proper with
    | call _ arguments_proper =>
      split
      · split
        · next argument =>
          refine (T.unquoted_alike agree (arguments_proper _ (.head _))).bind
            fun roles₁ v more h => ?_
          cases literal : Quote.literal v with
          | ok node =>
              refine .pure fun _ some => ?_
              cases some
              exact literal_proper h.1 literal
          | error exit => exact .throw (T.literal_exits h.1 h.2 literal)
        · exact T.fail_alike nofun
      · exact stays
  · exact stays

/-- What takes the place of a proper node is proper. -/
theorem substituted_alike (agree : T.Agree run run') {category : Category} {node kept : Node}
    (proper : node.Proper roles category) (keptProper : kept.Proper roles category) :
    T.Alike roles (do return (← Quote.substitute? run node).getD kept)
      (do return (← Quote.substitute? run' node).getD kept) fun roles' result =>
        result.Proper roles' category := by
  refine (T.substitute?_alike agree proper).bind fun roles' result more h => .pure ?_
  cases result with
  | none => exact keptProper.mono more
  | some node => exact h node rfl

theorem unquote_alike (agree : T.Agree run run') (depth : Nat) {category : Category} {node : Node}
    (proper : node.Proper roles category) :
    T.Alike roles (Quote.unquote run depth node) (Quote.unquote run' depth node)
      fun roles' result => result.Proper roles' category := by
  induction depth generalizing roles category node with
  | zero =>
      cases node with
      | piece id => exact T.halt_alike T.overflow
      | _ => exact T.substituted_alike agree proper proper
  | succ depth ih =>
      cases node with
      | piece id =>
          cases proper with
          | piece role notParameter =>
              refine (T.piece_alike role).bind fun roles₁ node more₁ nodeProper => ?_
              refine (T.comparison.tracks.belowM (fun _ _ _ h => ih h) node nodeProper).bind
                fun roles₂ below more₂ belowProper => ?_
              have role := more₂ _ _ (more₁ _ _ role)
              refine (T.setPiece_alike role belowProper).bind fun roles₃ _ more₃ _ => ?_
              exact T.substituted_alike agree (belowProper.mono more₃)
                (.piece (more₃ _ _ role) notParameter)
      | _ => exact T.substituted_alike agree proper proper

theorem quote_alike (agree : T.Agree run run') (depth : Nat) {arguments : List Node}
    (proper : ∀ a ∈ arguments, a.Proper roles .expression) :
    T.Alike roles (Quote.quote run depth arguments) (Quote.quote run' depth arguments)
      fun roles' v => v.Proper roles' := by
  unfold Quote.quote
  split
  · next node =>
    refine (T.copy_alike (proper node (.head _))).bind fun roles₁ copied _ copiedProper => ?_
    have unquoted := T.comparison.tracks.transformM
      (fun _ _ _ h => T.unquote_alike agree depth h) copiedProper
    exact unquoted.bind fun _ _ _ h => T.newQuote_alike h
  · exact T.fail_alike nofun

end

/-! ## Calls -/

section

variable {run run' : Node → ScopeId → Eval Value}

theorem apply_alike (agree : ∀ e, T.Agree (run · e) (run' · e)) {callee : Value}
    {arguments : List Value} (proper : callee.Proper roles)
    (argumentsProper : ∀ v ∈ arguments, v.Proper roles ∧ T.Fine v) :
    T.Alike roles (apply run callee arguments) (apply run' callee arguments) fun roles' v =>
      v.Proper roles' := by
  unfold Eval.apply
  cases proper with
  | function parameters body =>
      dsimp only
      split
      · exact T.fail_alike nofun
      · refine (T.newScope_alike fun b mem => ?_).bind fun roles₁ inner more _ => ?_
        · have mem := List.of_mem_zip (Assoc.mem_ofList mem)
          exact (argumentsProper _ mem.2).1
        · have ran := agree inner roles₁ _ _ (body.mono more)
          exact T.catchReturn_alike (ran.mono fun _ _ _ h => h.1)
  | builtin =>
      exact T.builtin_alike _ (fun v mem => (argumentsProper v mem).1)
        fun v mem => (argumentsProper v mem).2
  | _ => exact T.fail_alike nofun

theorem call_alike (agree : ∀ e, T.Agree (run · e) (run' · e)) (depth : Nat) (scope : ScopeId)
    {callee : Node} {arguments : List Node} (proper : callee.Proper roles .expression)
    (argumentsProper : ∀ a ∈ arguments, a.Proper roles .expression) :
    T.Alike roles (call depth run scope callee arguments) (call depth run' scope callee arguments)
      fun roles' v => v.Proper roles' := by
  unfold Eval.call
  split
  · exact T.quote_alike (agree scope) depth argumentsProper
  · refine (agree scope roles _ _ proper).bind fun roles₁ function more₁ functionProper => ?_
    refine (T.values_alike (agree scope) fun a mem => (argumentsProper a mem).mono more₁).bind
      fun roles₂ vs more₂ vsProper => ?_
    exact T.apply_alike agree (functionProper.1.mono more₂) vsProper

/-! ## All forms -/

/-- The forms of evaluation make proper values of proper trees. -/
theorem form_alike (agree : ∀ e, T.Agree (run · e) (run' · e)) (depth : Nat) (scope : ScopeId)
    {category : Category} {node : Node} (proper : node.Proper roles category) :
    T.Alike roles (form depth run node scope) (form depth run' node scope) fun roles' v =>
      v.Proper roles' := by
  have onlyProper {c : Category} {n : Node} (h : n.Proper roles c) :
      T.Alike roles (run n scope) (run' n scope) fun roles' v => v.Proper roles' :=
    (agree scope roles c n h).mono fun _ _ _ h => h.1
  cases proper with
  | program each => exact T.catchReturn_alike (T.sequence_alike (agree scope) each)
  | block each => exact T.sequence_alike (agree scope) each
  | letStmt value =>
      refine (onlyProper value).bind fun roles₁ v _ h => ?_
      exact (T.bind_alike h).bind fun _ _ _ _ => .pure .null
  | returnStmt value => exact (agree scope roles _ _ value).bind fun _ v _ h => .throw h
  | exprStmt value => exact onlyProper value
  | parameter => exact T.name_alike scope _
  | ident => exact T.name_alike scope _
  | int => exact .pure .int
  | bool => exact .pure .bool
  | str => exact .pure .str
  | array each =>
      refine (T.values_alike (agree scope) each).bind fun _ vs _ h => ?_
      exact T.newArray_alike fun v mem => (h v mem).1
  | hash keys values =>
      refine (T.entries_alike (agree scope) (fun _ none => absurd none List.not_mem_nil)
        fun p mem => ⟨keys p mem, values p mem⟩).bind fun _ entries _ h => ?_
      exact T.newSerial_alike.bind fun _ _ more _ => .pure <|
        .hash (fun entry mem => (h entry mem).1.mono more) fun entry mem => (h entry mem).2.mono more
  | unary _ operand =>
      exact (onlyProper operand).bind fun _ v _ _ => T.ofExcept_alike (Operator.unary_proper _ v)
  | binary _ left right =>
      refine (onlyProper left).bind fun roles₁ l more _ => ?_
      refine (agree scope roles₁ _ _ (right.mono more)).bind fun _ r _ _ => ?_
      exact T.ofExcept_alike (Operator.binary_proper _ l r)
  | ifThen condition consequence =>
      exact T.choose_alike (agree scope) condition consequence (.inl rfl)
  | ifElse condition consequence alternative =>
      exact T.choose_alike (agree scope) condition consequence (.inr alternative)
  | fnLit parameters body =>
      exact T.newSerial_alike.bind fun _ _ more _ => .pure <|
        .function (fun p mem => (parameters p mem).mono more) (body.mono more)
  | macroLit => exact T.fail_alike nofun
  | call callee arguments => exact T.call_alike agree depth scope callee arguments
  | index container position =>
      refine (onlyProper container).bind fun roles₁ c more₁ containerProper => ?_
      refine (agree scope roles₁ _ _ (position.mono more₁)).bind fun _ p more₂ h => ?_
      exact T.index_alike (containerProper.mono more₂) h.2
  | piece role notParameter =>
      refine (T.piece_alike role).bind fun roles₁ node _ nodeProper => ?_
      exact (agree scope roles₁ _ node nodeProper).mono fun _ _ _ h => h.1

end

end Eval.Terms

end MonkeyLang
