import MonkeyLang.Proofs.Evaluation.Expansion
import MonkeyLang.Proofs.Evaluation.Paired
import MonkeyLang.Proofs.Parser.Layout
import MonkeyLang.Proofs.Session.Reached

/-!
# Units of source behind other units

A unit of source that follows others in a session comes to the same as by itself, if none of its
identifiers is bound by the others. Two texts with the same words are one and the same unit here.

* `Renumbering.answer_paired` says so of the computation that a unit is.
* `Session.Like.eval` is the result for sessions.
-/

namespace MonkeyLang

open Session (values macros)

variable {T : Renumbering} {b b' : Nat}

/-! ## Outcomes and refusals -/

/-- Outcomes with the same fault, or with values that are like each other. -/
inductive Outcome.Like (T : Renumbering) (b : Nat) : Outcome → Outcome → Prop
  | value {v v' : Value} : v.Like T b v' → Like T b (.value v) (.value v')
  | failed {fault : Fault} : Like T b (.failed fault) (.failed fault)
  | returned {v v' : Value} : v.Like T b v' → Like T b (.returned v) (.returned v')

/-- The same refusal, wherever the mistakes stand. -/
inductive Refusal.Like : Refusal → Refusal → Prop
  | mistakes {ds ds' : List Diagnostic} :
    ds.map Diagnostic.mistake = ds'.map Diagnostic.mistake → Like (.mistakes ds) (.mistakes ds')
  | expansion {fault : ExpansionFault} : Like (.expansion fault) (.expansion fault)
  | halted {halt : Halt} : Like (.halted halt) (.halted halt)

namespace Renumbering

open Eval (newQuote newScope)

/-- The pairing of units. -/
def units (T : Renumbering) : Pairing Refusal Machine := ⟨Machine.Like T, fun _ => Refusal.Like⟩

variable {α : Type} {post : Nat → α → α → Prop}

theorem outcome_paired {c c' : Eval Value} (h : T.Paired b c c' fun b' => Value.Like T b') :
    T.units.Paired b (Expand.outcome c) (Expand.outcome c') fun b' => Outcome.Like T b' := by
  intro m m' states
  have ended := h m m' states
  rw [Expand.run_outcome, Expand.run_outcome]
  generalize c.run m = r, c'.run m' = r' at ended ⊢
  cases ended with
  | ok more states like => exact .ok more states (.value like)
  | error more states exits =>
      cases exits with
      | failed => exact .ok more states .failed
      | returned like => exact .ok more states (.returned like)
      | halted => exact .error more states .halted

theorem refuse_paired {fault : ExpansionFault} :
    T.units.Paired b (Expansion.fail fault) (Expansion.fail fault) post :=
  .throw .expansion

theorem remark_paired (r r' : Machine → Remark) :
    T.units.Paired b (modify fun m => m.remark (r m)) (modify fun m => m.remark (r' m))
      fun _ _ _ => True :=
  .modifyGet fun _ _ states => ⟨b, Nat.le_refl b, states.remark _ _, trivial⟩

/-! ## Calls of macros -/

section

variable {ps ps' as as' : List Node} {code code' node node' : Node}

theorem newQuotes_paired (likes : List.Forall₂ (T.Trees b) as as') :
    T.Paired b (as.mapM newQuote) (as'.mapM newQuote) fun b' =>
      List.Forall₂ (Value.Like T b') := by
  have row (nodes : List Node) : nodes.mapM newQuote = Eval.values newQuote nodes := by
    induction nodes with
    | nil => rfl
    | cons node nodes ih => rw [List.mapM_cons, Eval.values, ih]
  rw [row, row]
  exact values_paired (fun like => newQuote_paired like) likes

theorem body_paired (depth : Nat) {scope : ScopeId} (met : T.Met scope)
    (parameters : List.Forall₂ (T.Trees b) ps ps') (bodies : T.Trees b code code')
    (likes : List.Forall₂ (T.Trees b) as as') :
    T.Paired b (Expansion.body depth ps code scope as)
      (Expansion.body depth ps' code' (T.scope scope) as') fun b' => Value.Like T b' := by
  refine (newQuotes_paired likes).bind fun b₁ vs vs' more values => ?_
  have bindings := arguments_like (treesAll_mono parameters more) values
  refine (newScope_paired met bindings).bind fun b₂ inner inner' more' ⟨metInner, same⟩ => ?_
  subst same
  exact evaluate_paired depth metInner (Trees.mono bodies (Nat.le_trans more more'))

theorem replacement_paired (depth : Nat) (name : Text) {scope : ScopeId} (met : T.Met scope)
    (parameters : List.Forall₂ (T.Trees b) ps ps') (bodies : T.Trees b code code')
    (likes : List.Forall₂ (T.Trees b) as as') :
    T.units.Paired b (Expansion.replacement depth name ps code scope as)
      (Expansion.replacement depth name ps' code' (T.scope scope) as') fun b' => T.Trees b' := by
  unfold Expansion.replacement
  rw [parameters.length_eq, likes.length_eq]
  split
  · exact refuse_paired
  · refine (outcome_paired (body_paired depth met parameters bodies likes)).bind
      fun b₁ outcome outcome' _ like => ?_
    cases like with
    | failed => exact refuse_paired
    | value like | returned like =>
        cases like with
        | quote node => exact .pure node
        | _ => exact refuse_paired

/-- The scope of macros is an outermost one, so that it has the same number. -/
theorem step_paired (met : T.Met macros) (shared : T.scope macros = macros) (depth : Nat)
    (like : T.Trees b node node') :
    T.units.Paired b (Expansion.step depth macros node) (Expansion.step depth macros node')
      fun b' => T.Trees b' := by
  cases like with
  | call t callee length each =>
      cases callee with
      | @ident u u' name word free =>
          unfold Expansion.step
          refine .get_bind fun m m' states => ?_
          have found := states.store.lookup free met
          rw [shared] at found
          have stays := Node.Like.call t (.ident word free) length each
          generalize m.store.lookup macros name = v?, m'.store.lookup macros name = v'? at found ⊢
          -- What is bound to no macro on one side is bound to none on the other.
          cases found with
          | none => exact .pure stays
          | some like =>
              cases like with
              | macroValue parameters bodies met =>
                  refine (replacement_paired depth name met parameters bodies
                    (Node.LikeAll.of_zip length each)).bind fun b₁ _ _ _ like => ?_
                  exact (remark_paired _ _).bind fun _ _ _ more _ => .pure (Trees.mono like more)
              | _ => exact .pure stays
      | _ => exact .pure (.call t (by constructor <;> assumption) length each)
  | _ => exact .pure (by constructor <;> assumption)

end

end Renumbering

/-! ## Definitions of macros -/

/-- Definitions of macros with the same name, which is bound to nothing else. -/
structure MacroDefinition.Like (T : Renumbering) (b : Nat) (d d' : MacroDefinition) : Prop where
  name : d.name = d'.name
  free : T.Free d.name
  parameters : List.Forall₂ (T.Trees b) d.parameters d'.parameters
  body : T.Trees b d.body d'.body

theorem MacroDefinition.ofStatement?_like {node node' : Node} (like : T.Trees b node node') :
    Option.Rel (MacroDefinition.Like T b) (ofStatement? node) (ofStatement? node') := by
  cases like with
  | letStmt _ _ free value =>
      cases value with
      | macroLit _ length each body =>
          exact .some ⟨rfl, free, Node.LikeAll.of_zip length each, body⟩
      | _ => exact .none
  | _ => exact .none

namespace Machine.Like

variable {m m' : Machine}

theorem defineMacro (h : m.Like T b m') (met : T.Met macros) (shared : T.scope macros = macros)
    {d d' : MacroDefinition} (like : d.Like T b d') : (m.defineMacro macros d).Like T b (m'.defineMacro macros d') := by
  have value := @Value.Like.macroValue T b m.nextSerial _ _ _ _ macros like.parameters like.body met
  have bound := h.store.bind like.free macros value
  rw [shared, ← h.serials] at bound
  have defined : Machine.Like T b
      { m with
        store := m.store.bind macros d.name (.macroValue m.nextSerial d.parameters d.body macros)
        nextSerial := m.nextSerial + 1 }
      { m' with
        store := m'.store.bind macros d.name
          (.macroValue m'.nextSerial d'.parameters d'.body macros)
        nextSerial := m'.nextSerial + 1 } := by
    refine ⟨h.size, bound, h.pieces, ?_, Nat.le_succ_of_le h.base_le, h.printed⟩
    dsimp only
    rw [h.serials, T.serials.move_succ h.base_le]
  unfold Machine.defineMacro
  rw [← like.name]
  exact defined.remark _ _

/-- The statements that are left are like each other, and so are the macros. -/
theorem defineMacros (h : m.Like T b m') (met : T.Met macros) (shared : T.scope macros = macros)
    {program program' : Node} (like : T.Trees b program program') :
    T.Trees b (m.defineMacros macros program).1 (m'.defineMacros macros program').1 ∧
      (m.defineMacros macros program).2.Like T b (m'.defineMacros macros program').2 := by
  have statements := like.statements
  rw [Machine.defineMacros_eq, Machine.defineMacros_eq]
  refine ⟨?_, ?_⟩
  · have isNone_iff {s s' : Node} (like : T.Trees b s s') :
        (MacroDefinition.ofStatement? s).isNone ↔ (MacroDefinition.ofStatement? s').isNone := by
      have definitions := MacroDefinition.ofStatement?_like like
      generalize MacroDefinition.ofStatement? s = d,
        MacroDefinition.ofStatement? s' = d' at definitions ⊢
      cases definitions <;> exact Iff.rfl
    have left := List.rel_filter (fun _ _ like => isNone_iff like) statements
    exact .program left.length_eq (Node.LikeAll.each left)
  · have definitions := List.rel_filterMap
      (fun _ _ like => MacroDefinition.ofStatement?_like like) statements
    dsimp only
    generalize program.statements.filterMap MacroDefinition.ofStatement? = ds,
      program'.statements.filterMap MacroDefinition.ofStatement? = ds' at definitions ⊢
    induction definitions generalizing m m' with
    | nil => exact h
    | cons first _ ih => exact ih (h.defineMacro met shared first)

end Machine.Like

/-! ## Units -/

namespace Renumbering

section

variable {text text' : Text}

/-- Two texts with the same words, of which no identifier is bound to anything else. -/
structure Sources (T : Renumbering) (text text' : Text) : Prop where
  words : (lex text).map Token.word = (lex text').map Token.word
  free : ∀ t ∈ lex text, t.kind = .ident → T.Free t.literal

theorem read_paired (same : T.Sources text text') :
    T.units.Paired b (Session.read text) (Session.read text') fun b' => T.Trees b' := by
  obtain ⟨program, mistakes⟩ := parse_alike same.words same.free
  have silent : (parse text).diagnostics.isEmpty = (parse text').diagnostics.isEmpty := by
    rw [← List.isEmpty_map, mistakes, List.isEmpty_map]
  unfold Session.read
  dsimp only
  rw [silent]
  split
  · exact .pure (program.mono (fun _ _ => False.elim) fun _ free => free)
  · exact (remark_paired _ _).bind fun _ _ _ _ _ => .throw (.mistakes mistakes)

theorem expandProgram_paired (met : T.Met macros) (shared : T.scope macros = macros) (limit : Nat)
    {program program' : Node} (like : T.Trees b program program') :
    T.units.Paired b (Session.expandProgram limit program) (Session.expandProgram limit program')
      fun b' => T.Trees b' := by
  have defined : T.units.Paired b (modifyGet (·.defineMacros macros program))
      (modifyGet (·.defineMacros macros program')) fun b' => T.Trees b' :=
    .modifyGet fun m m' states =>
      have ⟨left, states⟩ := states.defineMacros met shared like
      ⟨b, Nat.le_refl b, states, left⟩
  exact defined.bind fun _ _ _ _ like =>
    transformM_paired (fun like => step_paired met shared limit like) like

theorem evaluateProgram_paired (met : T.Met values) (shared : T.scope values = values) (limit : Nat)
    {program program' : Node} (like : T.Trees b program program') :
    T.units.Paired b (Session.evaluateProgram limit program)
      (Session.evaluateProgram limit program') fun b' => Outcome.Like T b' := by
  have evaluated := outcome_paired (evaluate_paired limit met like)
  dsimp only at evaluated
  rw [shared] at evaluated
  refine evaluated.tryCatch fun b₁ refusal refusal' _ like => ?_
  cases like with
  | @halted halt =>
      cases halt with
      | overflow => exact (remark_paired _ _).bind fun _ _ _ _ _ => .pure .failed
      | _ => exact .throw .halted
  | mistakes same => exact .throw (.mistakes same)
  | expansion => exact .throw .expansion

/-- A unit comes to the same behind others as by itself. -/
theorem answer_paired (met : ∀ scope, T.Met scope) (sharedValues : T.scope values = values)
    (sharedMacros : T.scope macros = macros) (limit : Nat) (same : T.Sources text text') :
    T.units.Paired b (Session.answer limit text) (Session.answer limit text')
      fun b' answer answer' => answer.outcome.Like T b' answer'.outcome := by
  refine (read_paired same).bind fun _ program program' _ like => ?_
  refine (expandProgram_paired (met _) sharedMacros limit like).bind fun _ expanded expanded' _ like => ?_
  exact (evaluateProgram_paired (met _) sharedValues limit like).bind fun _ _ _ _ like => .pure like

end

end Renumbering

/-! ## Sessions -/

namespace Session

/-- The first session is in the second, under other numbers. -/
structure Like (T : Renumbering) (s s' : Session) : Prop where
  machine : s.machine.Like T s.machine.pieces.nextId s'.machine
  limit : s'.limit = s.limit
  met : ∀ scope, T.Met scope

/-- Two results that are like each other. -/
inductive LikeResults (T : Renumbering) (b : Nat) :
    Except Refusal Outcome → Except Refusal Outcome → Prop
  | ok {outcome outcome' : Outcome} : outcome.Like T b outcome' →
    LikeResults T b (.ok outcome) (.ok outcome')
  | error {refusal refusal' : Refusal} : refusal.Like refusal' →
    LikeResults T b (.error refusal) (.error refusal')

/-- A unit comes to the same in two sessions that are like each other, and leaves such sessions. -/
theorem Like.eval {s s' : Session} (h : s.Like T s') (sharedValues : T.scope values = values)
    (sharedMacros : T.scope macros = macros) {text text' : Text} (same : T.Sources text text') :
    (s.eval text).2.Like T (s'.eval text').2 ∧
      LikeResults T (s.eval text).2.machine.pieces.nextId (s.eval text).1 (s'.eval text').1 := by
  have remarked := h.machine.remark (.evaluating text.length) (.evaluating text'.length)
  have ended := Renumbering.answer_paired h.met sharedValues sharedMacros s.limit same _ _
    remarked
  unfold Session.eval Session.run Session.perform Session.remark
  dsimp only
  rw [h.limit]
  generalize (answer s.limit text).run _ = r, (answer s.limit text').run _ = r' at ended ⊢
  cases ended with
  | ok _ states like =>
      cases states.size
      exact ⟨⟨states, rfl, h.met⟩, .ok like⟩
  | error _ states like =>
      cases states.size
      exact ⟨⟨states, rfl, h.met⟩, .error like⟩

end Session

end MonkeyLang
