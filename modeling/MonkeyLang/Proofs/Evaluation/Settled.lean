import MonkeyLang.Proofs.Evaluation.Setting
import MonkeyLang.Proofs.Node.Children

/-!
# The forms of evaluation in a setting

The forms of evaluation, each over a family of functions that evaluate the trees inside it. If the
evaluations of the trees inside a form settle, so does the form. What a quotation comes to, and what
the body of a function, is left to the setting.

* `Eval.Setting.Evaluates` says of a family of evaluations that it settles on every later machine.
* `Eval.Setting.inspect_ne_overflow`: where nothing overflows, every value has a text unless it has
  too many digits.
* `Eval.Setting.Runs.form` is the result for all forms.
-/

namespace MonkeyLang

open Eval (newSerial)

/-! ## Texts -/

theorem Except.bind_ne_error {ε α β : Type} {x : Except ε α} {f : α → Except ε β} {e : ε}
    (first : x ≠ .error e) (then_ : ∀ a, f a ≠ .error e) : (x >>= f) ≠ .error e := by
  cases x with
  | error e' => exact fun same => first (congrArg Except.error (Except.error.inj same))
  | ok a => exact then_ a

theorem Decimal.write_ne_overflow (n : Int) : Decimal.write n ≠ .error .overflow := by
  unfold Decimal.write
  split <;> exact nofun

namespace Pieces

variable {p : Pieces}

theorem text_ne_overflow {node : Node} (h : ∃ text, p.text? node = some text) :
    p.text node ≠ .error .overflow := by
  obtain ⟨text, found⟩ := h
  rw [Pieces.text, found]
  exact nofun

theorem codeText_ne_overflow {keyword : Text} {parameters : List Node} {body : Node}
    (hparameters : ∀ n ∈ parameters, ∃ text, p.text? n = some text)
    (hbody : ∃ text, p.text? body = some text) :
    p.codeText keyword parameters body ≠ .error .overflow := by
  have texts : parameters.mapM p.text ≠ .error .overflow := by
    induction parameters with
    | nil => exact nofun
    | cons n others ih =>
        rw [List.mapM_cons]
        refine Except.bind_ne_error (text_ne_overflow (hparameters n (.head _))) fun _ => ?_
        exact Except.bind_ne_error (ih fun n mem => hparameters n (.tail _ mem)) fun _ => nofun
  exact Except.bind_ne_error texts fun _ =>
    Except.bind_ne_error (text_ne_overflow hbody) fun _ => nofun

end Pieces

namespace Value

variable {p : Pieces}

theorem inspectElements_ne_overflow {elements : List Value}
    (each : ∀ v ∈ elements, v.inspect p ≠ .error .overflow) :
    inspectElements p elements ≠ .error .overflow := by
  induction elements with
  | nil => exact nofun
  | cons v others ih =>
      rw [inspectElements]
      refine Except.bind_ne_error (each v (.head _)) fun _ => ?_
      exact Except.bind_ne_error (ih fun w mem => each w (.tail _ mem)) fun _ => nofun

theorem inspectEntries_ne_overflow {entries : List (HashKey × Value × Value)}
    (each : ∀ entry ∈ entries,
      entry.2.1.inspect p ≠ .error .overflow ∧ entry.2.2.inspect p ≠ .error .overflow) :
    inspectEntries p entries ≠ .error .overflow := by
  induction entries with
  | nil => exact nofun
  | cons entry others ih =>
      obtain ⟨digest, key, value⟩ := entry
      rw [inspectEntries]
      refine Except.bind_ne_error (each _ (.head _)).1 fun _ => ?_
      refine Except.bind_ne_error (each _ (.head _)).2 fun _ => ?_
      exact Except.bind_ne_error (ih fun w mem => each w (.tail _ mem)) fun _ => nofun

end Value

namespace Eval.Setting

variable {S : Eval.Setting} {F : Filter Nat} {m : Machine}

/-- Where nothing overflows, a value has a text unless it has too many digits. -/
theorem inspect_ne_overflow (total : S.total) (sound : S.Sound m) {v : MonkeyLang.Value}
    (fits : S.Value m v) : v.inspect m.pieces ≠ .error .overflow := by
  induction fits with
  | @bare v bare =>
      cases v with
      | int n =>
          rw [Value.inspect]
          exact Decimal.write_ne_overflow n
      | null | bool | str | builtin | error =>
          rw [Value.inspect]
          exact nofun
      | array | hash | function | quote | macroValue => cases bare
  | array _ ih =>
      rw [Value.inspect]
      exact Except.bind_ne_error (Value.inspectElements_ne_overflow ih) fun _ => nofun
  | hash _ _ ihKey ihValue =>
      rw [Value.inspect]
      refine Except.bind_ne_error ?_ fun _ => nofun
      exact Value.inspectEntries_ne_overflow fun entry mem => ⟨ihKey entry mem, ihValue entry mem⟩
  | function _ _ body => exact absurd body (S.code_total total)
  | quote quoted =>
      rw [Value.inspect]
      refine Except.bind_ne_error ?_ fun _ => nofun
      exact Pieces.text_ne_overflow (S.quoted_text total quoted)
  | macroValue parameters body =>
      rw [Value.inspect]
      exact Pieces.codeText_ne_overflow (fun n mem => S.held_text total sound.pieces (parameters n mem))
        (S.held_text total sound.pieces body)

/-! ## Computations without trees inside them -/

theorem Runs.newSerial : S.Runs F m (fun _ => Eval.newSerial) fun _ _ => True :=
  .modifyGet (.of_same rfl rfl) (·.of_same rfl rfl) trivial

theorem Runs.newArray {elements : List MonkeyLang.Value} (fits : ∀ v ∈ elements, S.Value m v) :
    S.Runs F m (fun _ => Eval.newArray elements) S.Value :=
  Runs.newSerial.bind fun _ _ later _ _ =>
    .pure (Value.Fits.array fun v mem => later.value (fits v mem))

theorem Runs.ofExcept {result : Except Fault MonkeyLang.Value}
    (h : ∀ v, result = .ok v → S.Value m v) :
    S.Runs F m (fun _ => Eval.ofExcept result) S.Value := by
  cases result with
  | ok v => exact .pure (h v rfl)
  | error fault => exact .fail

theorem Runs.name {e : ScopeId} (inside : S.Scope m e) (text : Text) :
    S.Runs F m (fun _ => Eval.name e text) S.Value := by
  refine .of_sound fun sound => ?_
  have read : S.Runs F m (fun _ => (MonadState.get : Eval Machine)) fun m' a =>
      m = m' ∧ m = a := .get ⟨rfl, rfl⟩
  refine read.bind fun a m' _ _ same => ?_
  obtain ⟨rfl, rfl⟩ := same
  cases found : m.store.lookup e text with
  | some v =>
      have fits : S.Value m v := sound.store.lookup inside found
      cases v with
      | error fault => exact .fail
      | _ => exact .pure fits
  | none =>
      cases Builtin.ofName? text with
      | some b => exact .pure (.bare rfl)
      | none => exact .fail

theorem Runs.print {v : MonkeyLang.Value} (fits : S.Value m v) :
    S.Runs F m (fun _ => Eval.print v) fun _ _ => True := by
  have read : S.Runs F m (fun _ => (MonadState.get : Eval Machine)) fun m' a =>
      m = m' ∧ m = a := .get ⟨rfl, rfl⟩
  have text : S.Runs F m (fun _ => Eval.inspect v) fun _ _ => True := by
    refine .of_sound fun sound => ?_
    refine read.bind fun a m' _ _ same => ?_
    obtain ⟨rfl, rfl⟩ := same
    cases inspected : v.inspect m.pieces with
    | ok text => exact .pure trivial
    | error halt =>
        refine .throw fun total same => ?_
        exact inspect_ne_overflow total sound fits (same ▸ inspected)
  exact text.bind fun _ _ _ _ _ => .modifyGet (.of_same rfl rfl) (·.of_same rfl rfl) trivial

/-! ## Operators -/

theorem unary_isBare {op : Text} {operand v : MonkeyLang.Value}
    (h : Operator.unary op operand = .ok v) : v.isBare = true := by
  unfold Operator.unary at h
  split at h <;> cases h <;> rfl

theorem binary_isBare {op : Text} {l r v : MonkeyLang.Value}
    (h : Operator.binary op l r = .ok v) : v.isBare = true := by
  unfold Operator.binary Operator.integer Operator.string Operator.other at h
  repeat' split at h
  all_goals cases h <;> rfl

theorem element_fits {elements : List MonkeyLang.Value} (position : MonkeyLang.Value)
    (fits : ∀ v ∈ elements, S.Value m v) : S.Value m (Operator.element elements position) := by
  unfold Operator.element
  split
  · next n =>
      split
      · exact .bare rfl
      · rw [List.getD_eq_getElem?_getD]
        cases found : elements[n.toNat]? with
        | some v => exact fits v (List.mem_of_getElem? found)
        | none => exact .bare rfl
  · exact .bare rfl

theorem entry_fits {entries : Assoc HashKey (MonkeyLang.Value × MonkeyLang.Value)} (key : HashKey)
    (fits : ∀ entry ∈ entries, S.Value m entry.2.1 ∧ S.Value m entry.2.2) :
    S.Value m (Operator.entry entries key) := by
  unfold Operator.entry
  split
  · next found => exact (fits _ (Assoc.mem_of_get? found)).2
  · exact .bare rfl

theorem Runs.undigested {α : Type} {post : Machine → α → Prop} (v : MonkeyLang.Value) :
    S.Runs F m (fun _ => MonadExcept.throw (Operator.undigested v)) post := by
  rcases Operator.undigested_cases v with halts | fails
  · rw [halts]
    exact .throw fun _ => nofun
  · rw [fails]
    exact .fail

/-- What a container holds fits if the container does. -/
theorem Runs.index {container : MonkeyLang.Value} (position : MonkeyLang.Value)
    (fits : S.Value m container) :
    S.Runs F m (fun _ => Eval.ofExit (Operator.index container position)) S.Value := by
  cases container with
  | array serial elements => exact .pure (element_fits position (Value.Fits.array_iff.1 fits))
  | hash serial entries =>
      unfold Operator.index
      cases position.hashKey? with
      | some key => exact .pure (entry_fits key (Value.Fits.hash_iff.1 fits))
      | none => exact .undigested position
  | _ => exact .fail

/-! ## Builtin functions -/

theorem Runs.single {arguments : List MonkeyLang.Value} (fits : ∀ v ∈ arguments, S.Value m v) :
    S.Runs F m (fun _ => Eval.ofExcept (Builtin.single arguments)) S.Value := by
  match arguments with
  | [v] => exact .pure (fits v (.head _))
  | [] | _ :: _ :: _ => exact .fail

theorem Runs.elementsFor (b : Builtin) {v : MonkeyLang.Value} (fits : S.Value m v) :
    S.Runs F m (fun _ => Eval.ofExcept (Builtin.elementsFor b v)) fun m' vs =>
      ∀ v ∈ vs, S.Value m' v := by
  cases v with
  | array serial elements => exact .pure (Value.Fits.array_iff.1 fits)
  | _ => exact .fail

theorem Runs.singleArray (b : Builtin) {arguments : List MonkeyLang.Value}
    (fits : ∀ v ∈ arguments, S.Value m v) :
    S.Runs F m (fun _ => Builtin.singleArray b arguments) fun m' vs => ∀ v ∈ vs, S.Value m' v :=
  (Runs.single fits).bind fun _ _ _ _ fits => Runs.elementsFor b fits

theorem Runs.prints {arguments : List MonkeyLang.Value} (fits : ∀ v ∈ arguments, S.Value m v) :
    S.Runs F m (fun _ => arguments.forM Eval.print) fun _ _ => True := by
  induction arguments generalizing m with
  | nil => exact .pure trivial
  | cons v others ih =>
      refine (Runs.print (fits v (.head _))).bind fun _ m' later _ _ => ?_
      exact ih fun w mem => later.value (fits w (.tail _ mem))

theorem Runs.builtin (b : Builtin) {arguments : List MonkeyLang.Value}
    (fits : ∀ v ∈ arguments, S.Value m v) :
    S.Runs F m (fun _ => b.call arguments) S.Value := by
  cases b with
  | len =>
      refine (Runs.single fits).bind fun v _ _ _ _ => Runs.ofExcept fun w hw => ?_
      unfold Builtin.length at hw
      split at hw <;> cases hw <;> exact .bare rfl
  | first =>
      refine (Runs.singleArray .first fits).bind fun vs _ _ _ fits => .pure ?_
      cases vs with
      | nil => exact .bare rfl
      | cons v vs => exact fits v (.head _)
  | last =>
      refine (Runs.singleArray .last fits).bind fun vs _ _ _ fits => .pure ?_
      rcases vs.eq_nil_or_concat with rfl | ⟨init, v, rfl⟩
      · exact .bare rfl
      · rw [List.concat_eq_append, List.getLastD_concat]
        exact fits v (by simp)
  | rest =>
      refine (Runs.singleArray .rest fits).bind fun vs _ _ _ fits => ?_
      cases vs with
      | nil => exact .pure (.bare rfl)
      | cons v vs => exact Runs.newArray fun w mem => fits w (.tail _ mem)
  | push =>
      match arguments with
      | [v, element] =>
        refine (Runs.elementsFor .push (fits v (.head _))).bind fun vs _ later _ fitsAll => ?_
        refine Runs.newArray fun w mem => ?_
        rcases List.mem_append.1 mem with old | new
        · exact fitsAll w old
        · rw [List.mem_singleton.1 new]
          exact later.value (fits element (.tail _ (.head _)))
      | [] | [_] | _ :: _ :: _ :: _ => exact .fail
  | puts => exact (Runs.prints fits).bind fun _ _ _ _ _ => .pure (.bare rfl)

/-! ## Trees inside a form -/

/-- On every later machine the evaluations settle. -/
def Evaluates (S : Eval.Setting) (F : Filter Nat) (m : Machine)
    (run : Nat → Eval MonkeyLang.Value) : Prop :=
  ∀ m', S.Later m m' → S.Runs F m' run S.Value

theorem Evaluates.later {run : Nat → Eval MonkeyLang.Value} {m' : Machine}
    (h : S.Evaluates F m run) (later : S.Later m m') : S.Evaluates F m' run :=
  fun m'' later' => h m'' (later.trans later')

theorem Evaluates.runs {run : Nat → Eval MonkeyLang.Value} (h : S.Evaluates F m run) :
    S.Runs F m run S.Value :=
  h m .refl

section Forms

variable (run : Nat → Node → Eval MonkeyLang.Value)

theorem Runs.sequence {nodes : List Node}
    (each : ∀ n ∈ nodes, S.Evaluates F m fun i => run i n) :
    S.Runs F m (fun i => Eval.sequence (run i) nodes) S.Value := by
  induction nodes generalizing m with
  | nil => exact .pure (.bare rfl)
  | cons n others ih =>
      have first := (each n (.head _)).runs
      cases others with
      | nil => exact first
      | cons n' others =>
          exact first.bind fun _ m' later _ _ => ih fun w mem => (each w (.tail _ mem)).later later

theorem Runs.values {nodes : List Node}
    (each : ∀ n ∈ nodes, S.Evaluates F m fun i => run i n) :
    S.Runs F m (fun i => Eval.values (run i) nodes) fun m' vs => ∀ v ∈ vs, S.Value m' v := by
  induction nodes generalizing m with
  | nil => exact .pure nofun
  | cons n others ih =>
      refine (each n (.head _)).runs.bind fun v m₁ later₁ _ fits => ?_
      have rest := ih fun w mem => (each w (.tail _ mem)).later later₁
      exact rest.bind fun vs m₂ later₂ _ fitsAll =>
        .pure (List.forall_mem_cons.2 ⟨later₂.value fits, fitsAll⟩)

theorem Runs.entries (done : Assoc HashKey (MonkeyLang.Value × MonkeyLang.Value))
    {pairs : List (Node × Node)}
    (fits : ∀ entry ∈ done, S.Value m entry.2.1 ∧ S.Value m entry.2.2)
    (each : ∀ p ∈ pairs, (S.Evaluates F m fun i => run i p.1) ∧ S.Evaluates F m fun i => run i p.2) :
    S.Runs F m (fun i => Eval.entries (run i) done pairs) fun m' entries =>
      ∀ entry ∈ entries, S.Value m' entry.2.1 ∧ S.Value m' entry.2.2 := by
  induction pairs generalizing m done with
  | nil => exact .pure fits
  | cons p others ih =>
      obtain ⟨evaluatesKey, evaluatesValue⟩ := each p (.head _)
      refine evaluatesKey.runs.bind fun key m₁ later₁ _ keyFits => ?_
      cases key.hashKey? with
      | none => exact .undigested key
      | some digest =>
          refine (evaluatesValue.later later₁).runs.bind fun v m₂ later₂ _ valueFits => ?_
          have later := later₁.trans later₂
          refine ih _ (fun entry mem => ?_) fun w mem =>
            (each w (.tail _ mem)).imp (·.later later) (·.later later)
          rcases Assoc.mem_insert mem with old | rfl
          · exact (fits entry old).imp later.value later.value
          · exact ⟨later₂.value keyFits, valueFits⟩

theorem Runs.choose {condition consequence alternative : Node}
    (hcondition : S.Evaluates F m fun i => run i condition)
    (hconsequence : S.Evaluates F m fun i => run i consequence)
    (halternative : S.Evaluates F m fun i => run i alternative) :
    S.Runs F m (fun i => Eval.choose (run i) condition consequence alternative) S.Value := by
  refine hcondition.runs.bind fun v m' later _ _ => ?_
  cases v.isTruthy with
  | true => exact (hconsequence.later later).runs
  | false =>
      cases alternative.isMissing with
      | true => exact .pure (.bare rfl)
      | false => exact (halternative.later later).runs

/-- A caught return is a result. -/
theorem Runs.catchReturn {c : Nat → Eval MonkeyLang.Value} (h : S.Runs F m c S.Value) :
    S.Runs F m (fun i => Eval.catchReturn (c i)) S.Value := by
  refine h.tryCatch fun exit m' _ _ atExit => ?_
  cases exit with
  | returned v => exact .pure atExit
  | failed fault => exact .throw atExit
  | halted halt => exact .throw atExit

end Forms

/-! ## Calls -/

/-- A computation in a new scope. -/
theorem Runs.inside {outer : ScopeId} {bindings : Assoc Text MonkeyLang.Value}
    (body : Nat → ScopeId → Eval MonkeyLang.Value) (allowed : S.Scope m outer)
    (fits : ∀ b ∈ bindings, S.Value m b.2)
    (runs : ∀ inner m', S.Later m m' → S.Scope m' inner →
      S.Runs F m' (fun i => body i inner) S.Value) :
    S.Runs F m (fun i => do body i (← Eval.newScope outer bindings)) S.Value := by
  refine .of_sound fun sound => ?_
  obtain ⟨later, sound', inner⟩ := sound.enter allowed fits
  have opened : S.Runs F m (fun _ => Eval.newScope outer bindings) fun m' id => S.Scope m' id :=
    .modifyGet later (fun _ => sound') inner
  exact opened.bind fun id m' later' _ inside => runs id m' later' inside

variable {run : Nat → Node → ScopeId → Eval MonkeyLang.Value}

theorem Runs.apply {callee : MonkeyLang.Value} {values : List MonkeyLang.Value}
    (bodies : ∀ body inner m', S.Later m m' → S.Scope m' inner → S.code m'.pieces body →
      S.Runs F m' (fun i => run i body inner) S.Value)
    (calleeFits : S.Value m callee) (fits : ∀ v ∈ values, S.Value m v) :
    S.Runs F m (fun i => Eval.apply (run i) callee values) S.Value := by
  cases callee with
  | function serial parameters body scope =>
      obtain ⟨allowed, -, code⟩ := Value.Fits.function_iff.1 calleeFits
      by_cases arity : parameters.length ≠ values.length
      · simp only [Eval.apply, if_pos arity]
        exact .fail
      · simp only [Eval.apply, if_neg arity]
        refine Runs.inside (fun i inner => Eval.catchReturn (run i body inner)) allowed
          (fun b mem => ?_) fun inner m' later inside => ?_
        · exact fits _ (List.of_mem_zip (Assoc.mem_ofList mem)).2
        · exact Runs.catchReturn (bodies body inner m' later inside (S.code_moves later.moves code))
  | builtin b => exact Runs.builtin b fits
  | _ => exact .fail

/-! ## Forms -/

/-- A form settles if the evaluations of its children do, and that of the piece that stands there;
if the bodies of functions do; and if the quotation does where it is one. -/
theorem Runs.form {depth : Nat → Nat} {node : Node} {e : ScopeId} (inside : S.Scope m e)
    (children : ∀ c ∈ node.children, S.Evaluates F m fun i => run i c e)
    (content : ∀ id, node = .piece id → S.Runs F m (fun i => run i (m.pieces.get id) e) S.Value)
    (code : ∀ t parameters body, node = .fnLit t parameters body →
      (∀ p ∈ parameters, S.parameter m.pieces p) ∧ S.code m.pieces body)
    (bodies : ∀ body inner m', S.Later m m' → S.Scope m' inner → S.code m'.pieces body →
      S.Runs F m' (fun i => run i body inner) S.Value)
    (quoting : ∀ t callee arguments, node = .call t callee arguments →
      callee.isIdent Quote.quoteName = true →
      S.Runs F m (fun i => Quote.quote (run i · e) (depth i) arguments) S.Value) :
    S.Runs F m (fun i => Eval.form (depth i) (run i) node e) S.Value := by
  cases node with
  | missing => exact .fail
  | program statements => exact Runs.catchReturn (Runs.sequence (run · · e) children)
  | block t statements => exact Runs.sequence (run · · e) children
  | letStmt t name value =>
      refine (children value (.head _)).runs.bind fun v m' _ sound fits => ?_
      have bound := sound.bind e name.text fits
      have binds : S.Runs F m' (fun _ => Eval.bind e name.text v) fun _ _ => True :=
        .modifyGet bound.1 (fun _ => bound.2) trivial
      exact binds.bind fun _ _ _ _ _ => .pure (.bare rfl)
  | returnStmt t value =>
      exact (children value (.head _)).runs.bind fun v _ _ _ fits => .throw fits
  | exprStmt t value => exact (children value (.head _)).runs
  | ident t text => exact Runs.name inside text
  | int t value => exact .pure (.bare rfl)
  | bool t value => exact .pure (.bare rfl)
  | str t value => exact .pure (.bare rfl)
  | array t elements =>
      exact (Runs.values (run · · e) children).bind fun _ _ _ _ fits => Runs.newArray fits
  | hash t pairs =>
      have each (p : Node × Node) (mem : p ∈ pairs) :
          (S.Evaluates F m fun i => run i p.1 e) ∧ S.Evaluates F m fun i => run i p.2 e :=
        ⟨children p.1 (List.mem_flatMap.2 ⟨p, mem, .head _⟩),
          children p.2 (List.mem_flatMap.2 ⟨p, mem, .tail _ (.head _)⟩)⟩
      refine (Runs.entries (run · · e) [] nofun each).bind
        fun entries m₁ _ _ fits => ?_
      refine Runs.newSerial.bind fun _ m₂ later _ _ => .pure (Value.Fits.hash_iff.2 ?_)
      exact fun entry mem => (fits entry mem).imp later.value later.value
  | unary t op operand =>
      exact (children operand (.head _)).runs.bind fun _ _ _ _ _ =>
        Runs.ofExcept fun _ computed => .bare (unary_isBare computed)
  | binary t left op right =>
      refine (children left (.head _)).runs.bind fun _ _ later _ _ => ?_
      exact ((children right (.tail _ (.head _))).later later).runs.bind fun _ _ _ _ _ =>
        Runs.ofExcept fun _ computed => .bare (binary_isBare computed)
  | ifElse t condition consequence alternative =>
      exact Runs.choose (run · · e) (children _ (.head _)) (children _ (.tail _ (.head _)))
        (children _ (.tail _ (.tail _ (.head _))))
  | fnLit t parameters body =>
      obtain ⟨parameters, code⟩ := code t parameters body rfl
      refine Runs.newSerial.bind fun _ _ later _ _ => .pure (.function ?_ (fun p mem => ?_) ?_)
      · exact later.scope inside
      · exact S.parameter_moves later.moves (parameters p mem)
      · exact S.code_moves later.moves code
  | macroLit t parameters body => exact .fail
  | call t callee arguments =>
      simp only [Eval.form, Eval.call]
      cases isQuote : callee.isIdent Quote.quoteName with
      | true => exact quoting t callee arguments rfl isQuote
      | false =>
          refine (children callee (.head _)).runs.bind fun function m₁ later₁ _ calleeFits => ?_
          have values := Runs.values (run · · e) fun n mem =>
            (children n (.tail _ mem)).later later₁
          refine values.bind fun vs m₂ later₂ _ fits => ?_
          refine Runs.apply (fun body inner m' later => ?_) (later₂.value calleeFits) fits
          exact bodies body inner m' ((later₁.trans later₂).trans later)
  | index t container position =>
      refine (children container (.head _)).runs.bind fun _ m₁ later₁ _ containerFits => ?_
      refine ((children position (.tail _ (.head _))).later later₁).runs.bind fun p _ later₂ _ _ => ?_
      exact Runs.index p (later₂.value containerFits)
  | piece id => exact (content id rfl).congr (.of_forall fun _ => rfl)

end Eval.Setting

end MonkeyLang
