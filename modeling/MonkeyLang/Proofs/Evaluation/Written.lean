import MonkeyLang.Proofs.Evaluation.Evaluators
import MonkeyLang.Proofs.Value.Writable

/-!
# Evaluations that come to values that can be written

An evaluation writes the values that it prints, and those that it puts into a quotation, and digests
those that it takes for keys. If nothing inside the values that it comes to leads to a halt, it does
not halt like this, but for the overflow.

* `Eval.Written` says so of a computation, `Eval.Written.form` of the forms of evaluation.
* `Evaluator.ComesTo` says which cases of evaluation come up in an evaluation.
* `evaluate_ne_error` is the result.
-/

namespace MonkeyLang

namespace Eval

variable {α β : Type} {halt : Halt}

/-- The computation does not halt like this, and its results have a property. -/
def Written (halt : Halt) (c : Eval α) (post : α → Prop) : Prop :=
  ∀ m, match c.run m with
    | .ok a _ => post a
    | .error exit _ => exit ≠ .halted halt

namespace Written

variable {c : Eval α} {next : α → Eval β} {mid post post' : α → Prop} {post₂ : β → Prop}

theorem pure {a : α} (h : post a) : Written halt (Pure.pure a) post := fun _ => h

theorem throw {exit : Exit} (h : exit ≠ .halted halt) :
    Written halt (MonadExcept.throw exit) post := fun _ => h

theorem overflow (other : halt ≠ .overflow) :
    Written halt (MonadExcept.throw (.halted .overflow) : Eval α) post :=
  throw fun same => other (Exit.halted.inj same).symm

theorem fail {fault : Fault} : Written halt (Eval.fail fault) post := throw nofun

theorem modifyGet {f : Machine → α × Machine} :
    Written halt (MonadState.modifyGet f : Eval α) fun _ => True := fun _ => trivial

theorem get : Written halt (MonadState.get : Eval Machine) fun _ => True := fun _ => trivial

theorem bind (first : Written halt c mid) (then_ : ∀ a, mid a → Written halt (next a) post₂) :
    Written halt (c >>= next) post₂ := by
  intro m
  have ended := first m
  rw [EStateM.run_bind]
  cases ran : c.run m with
  | ok a m₁ =>
      rw [ran] at ended
      exact then_ a ended m₁
  | error exit m₁ =>
      rw [ran] at ended
      exact ended

theorem mono (h : Written halt c post) (weaker : ∀ a, post a → post' a) : Written halt c post' := by
  intro m
  have ended := h m
  cases ran : c.run m with
  | ok a m₁ =>
      rw [ran] at ended
      exact weaker a ended
  | error exit m₁ =>
      rw [ran] at ended
      exact ended

theorem any (h : Written halt c post) : Written halt c fun _ => True := h.mono fun _ _ => trivial

theorem tryCatch {handler : Exit → Eval α} (h : Written halt c post)
    (handled : ∀ exit, exit ≠ .halted halt → Written halt (handler exit) post) :
    Written halt (MonadExcept.tryCatch c handler) post := by
  intro m
  have ended := h m
  rw [run_tryCatch]
  cases ran : c.run m with
  | ok a m₁ =>
      rw [ran] at ended
      exact ended
  | error exit m₁ =>
      rw [ran] at ended
      exact handled exit ended m₁

theorem sequential : Sequential fun α (c : Eval α) => Written halt c fun _ => True :=
  ⟨fun _ => pure trivial, fun first then_ => bind first fun a _ => then_ a⟩

/-- A computation that carries a state of its own is as its runs from each state are. -/
theorem sequential_stateT {σ : Type} :
    Sequential fun α (c : StateT σ Eval α) => ∀ s, Written halt (c.run s) fun _ => True where
  pure _ _ := pure trivial
  bind first then_ s := bind (first s) fun (a, s') _ => then_ a s'

/-! ## Computations without trees inside them -/

theorem newArray (elements : List Value) : Written halt (newArray elements) fun _ => True :=
  modifyGet.bind fun _ _ => pure trivial

theorem ofExcept (result : Except Fault α) : Written halt (ofExcept result) fun _ => True := by
  cases result with
  | ok v => exact pure trivial
  | error fault => exact fail

theorem piece (id : PieceId) : Written halt (piece id) fun _ => True :=
  get.bind fun _ _ => pure trivial

theorem keep (node : Node) : Written halt (keep node) fun _ => True := by
  unfold Eval.keep
  split
  · exact modifyGet.bind fun _ _ => pure trivial
  · exact pure trivial

theorem newQuote (node : Node) : Written halt (newQuote node) fun _ => True := by
  have kept (node : Node) : Written halt (keepBody node) fun _ => True := by
    cases node with
    | fnLit t parameters body => exact (keep body).bind fun _ _ => pure trivial
    | _ => exact pure trivial
  exact (sequential.transformM kept node).bind fun node _ =>
    (keep node).bind fun _ _ => modifyGet.bind fun _ _ => pure trivial

theorem name (e : ScopeId) (text : Text) : Written halt (name e text) fun _ => True := by
  refine get.bind fun m _ => ?_
  split
  · exact fail
  · exact pure trivial
  · split
    · exact pure trivial
    · exact fail

theorem print (other : halt ≠ .overflow) {v : Value} (avoids : v.avoids halt = true) :
    Written halt (print v) fun _ => True := by
  have text : Written halt (inspect v) fun _ => True := by
    refine get.bind fun m _ => ?_
    have short : v.inspect m.pieces ≠ .error halt := v.inspect_ne_error other avoids
    cases inspected : v.inspect m.pieces with
    | ok text => exact pure trivial
    | error halt' =>
        refine throw fun same => short ?_
        rw [inspected, Exit.halted.inj same]
  exact text.bind fun _ _ => modifyGet

theorem prints (other : halt ≠ .overflow) {vs : List Value} (avoids : ∀ v ∈ vs, v.avoids halt = true) :
    Written halt (vs.forM Eval.print) fun _ => True := by
  induction vs with
  | nil => exact pure trivial
  | cons v vs ih =>
      exact (print other (avoids v (.head _))).bind fun _ _ => ih fun w mem => avoids w (.tail _ mem)

theorem undigested {v : Value} (avoids : v.avoids halt = true) (keyless : v.hashKey? = none) :
    Written halt (MonadExcept.throw (Operator.undigested v) : Eval α) post :=
  throw (Operator.undigested_ne_halted avoids keyless)

theorem index (container : Value) {position : Value} (avoids : position.avoids halt = true) :
    Written halt (ofExit (Operator.index container position)) fun _ => True := by
  cases container with
  | array serial elements => exact pure trivial
  | hash serial entries =>
      unfold Operator.index
      cases keyed : position.hashKey? with
      | some key => exact pure trivial
      | none => exact undigested avoids keyed
  | _ => exact fail

theorem builtin (other : halt ≠ .overflow) (b : Builtin) {arguments : List Value}
    (avoids : ∀ v ∈ arguments, v.avoids halt = true) :
    Written halt (b.call arguments) fun _ => True := by
  have elements (b : Builtin) : Written halt (b.singleArray arguments) fun _ => True :=
    (ofExcept _).bind fun v _ => ofExcept (b.elementsFor v)
  cases b with
  | len => exact (ofExcept _).bind fun v _ => ofExcept (Builtin.length v)
  | first => exact (elements .first).bind fun _ _ => pure trivial
  | last => exact (elements .last).bind fun _ _ => pure trivial
  | rest =>
      refine (elements .rest).bind fun vs _ => ?_
      cases vs with
      | nil => exact pure trivial
      | cons v vs => exact newArray vs
  | push =>
      match arguments with
      | [v, element] => exact (ofExcept _).bind fun vs _ => newArray (vs ++ [element])
      | [] | [_] | _ :: _ :: _ :: _ => exact fail
  | puts => exact (prints other avoids).bind fun _ _ => pure trivial

/-! ## Trees inside a form -/

section Forms

variable {run : Node → Eval Value} (writes : ∀ n, Written halt (run n) fun v => v.avoids halt = true)
include writes

theorem sequence (nodes : List Node) : Written halt (sequence run nodes) fun _ => True := by
  induction nodes with
  | nil => exact pure trivial
  | cons n others ih =>
      cases others with
      | nil => exact (writes n).any
      | cons n' others => exact (writes n).bind fun _ _ => ih

theorem values (nodes : List Node) :
    Written halt (values run nodes) fun vs => ∀ v ∈ vs, v.avoids halt = true := by
  induction nodes with
  | nil => exact pure nofun
  | cons n others ih =>
      exact (writes n).bind fun v avoids => ih.bind fun vs allAvoid =>
        pure (List.forall_mem_cons.2 ⟨avoids, allAvoid⟩)

theorem entries (done : Assoc HashKey (Value × Value)) (pairs : List (Node × Node)) :
    Written halt (entries run done pairs) fun _ => True := by
  induction pairs generalizing done with
  | nil => exact pure trivial
  | cons p others ih =>
      refine (writes p.1).bind fun key avoids => ?_
      cases keyed : key.hashKey? with
      | none => exact undigested avoids keyed
      | some digest => exact (writes p.2).bind fun v _ => ih _

theorem choose (condition consequence alternative : Node) :
    Written halt (choose run condition consequence alternative) fun _ => True := by
  refine (writes condition).bind fun v _ => ?_
  split
  · exact (writes consequence).any
  · split
    · exact pure trivial
    · exact (writes alternative).any

theorem unquoted (argument : Node) :
    Written halt (Quote.unquoted run argument) fun v => v.avoids halt = true := by
  refine (writes argument).tryCatch fun exit other => ?_
  cases exit with
  | returned v => exact fail
  | _ => exact throw other

theorem substitute? (node : Node) : Written halt (Quote.substitute? run node) fun _ => True := by
  unfold Quote.substitute?
  split
  · split
    · split
      · refine (unquoted writes _).bind fun v avoids => ?_
        split
        · exact pure trivial
        · next exit literal =>
            exact throw fun same => Quote.literal_ne_halted avoids (literal.trans (congrArg _ same))
      · exact fail
    · exact pure trivial
  · exact pure trivial

theorem unquote (other : halt ≠ .overflow) (depth : Nat) (node : Node) :
    Written halt (Quote.unquote run depth node) fun _ => True := by
  have substituted (node kept : Node) :
      Written halt (do return (← Quote.substitute? run node).getD kept) fun _ => True :=
    (substitute? writes node).bind fun _ _ => pure trivial
  induction depth generalizing node with
  | zero =>
      cases node with
      | piece id => exact overflow other
      | _ => exact substituted _ _
  | succ depth ih =>
      cases node with
      | piece id =>
          refine (piece id).bind fun node _ => ?_
          refine (sequential.belowM ih node).bind fun node _ => ?_
          exact modifyGet.bind fun _ _ => substituted _ _
      | _ => exact substituted _ _

end Forms

/-- A return that is caught is a result. -/
theorem catchReturn {c : Eval Value} (h : Written halt c fun _ => True) :
    Written halt (catchReturn c) fun _ => True := by
  refine h.tryCatch fun exit other => ?_
  cases exit with
  | returned v => exact pure trivial
  | _ => exact throw other

theorem copy (node : Node) : Written halt (Quote.copy node) fun _ => True := by
  have lift {α : Type} {c : Eval α} (h : Written halt c fun _ => True) (copies : Quote.Copies) :
      Written halt ((liftM c : StateT Quote.Copies Eval α).run copies) fun _ => True :=
    h.bind fun _ _ => pure trivial
  have place (depth : Nat) (node : Node) (copies : Quote.Copies) :
      Written halt ((Quote.copyPlace depth node).run copies) fun _ => True := by
    have steps : Sequential fun α (c : StateT Quote.Copies Eval α) =>
      ∀ s, Written halt (c.run s) fun _ => True := sequential_stateT
    induction depth generalizing node copies with
    | zero => exact steps.pure _ copies
    | succ depth ih =>
        cases node with
        | piece id =>
            refine steps.bind (fun _ => pure trivial) (fun copies => ?_) copies
            cases Assoc.get? id copies with
            | some copy => exact steps.pure _
            | none =>
                refine steps.bind (lift (piece id)) fun node => ?_
                refine steps.bind (lift modifyGet) fun copy => ?_
                refine steps.bind (fun _ => pure trivial) fun _ => ?_
                refine steps.bind (steps.belowM ih node) fun node => ?_
                exact steps.bind (lift modifyGet) fun _ => steps.pure _
        | _ => exact steps.pure _ copies
  exact get.bind fun m _ =>
    (sequential_stateT.transformM (place (m.pieces.nextId + 1)) node []).bind fun _ _ => pure trivial

/-! ## Evaluation -/

variable (other : halt ≠ .overflow) {run : Node → ScopeId → Eval Value}
  (writes : ∀ n e, Written halt (run n e) fun v => v.avoids halt = true)
include other writes

theorem apply (callee : Value) {values : List Value}
    (avoids : ∀ v ∈ values, v.avoids halt = true) :
    Written halt (apply run callee values) fun _ => True := by
  cases callee with
  | function serial parameters body scope =>
      simp only [Eval.apply]
      split
      · exact fail
      · exact modifyGet.bind fun inner _ => catchReturn (writes body inner).any
  | builtin b => exact builtin other b avoids
  | _ => exact fail

theorem quote (depth : Nat) (e : ScopeId) (arguments : List Node) :
    Written halt (Quote.quote (run · e) depth arguments) fun _ => True := by
  match arguments with
  | [node] =>
    refine (copy node).bind fun node _ => ?_
    exact (sequential.transformM (unquote (writes · e) other depth) node).bind fun node _ => newQuote node
  | [] | _ :: _ :: _ => exact fail

/-- A form does not halt like this if the trees inside it come to values in which nothing leads to the
halt. -/
theorem form (depth : Nat) (node : Node) (e : ScopeId) :
    Written halt (form depth run node e) fun _ => True := by
  have inside (n : Node) := writes n e
  cases node with
  | missing => exact fail
  | program statements => exact catchReturn (sequence inside statements)
  | block t statements => exact sequence inside statements
  | letStmt t name value =>
      exact (inside value).bind fun _ _ => modifyGet.bind fun _ _ => pure trivial
  | returnStmt t value => exact (inside value).bind fun _ _ => throw nofun
  | exprStmt t value => exact (inside value).any
  | ident t text => exact name e text
  | int t value => exact pure trivial
  | bool t value => exact pure trivial
  | str t value => exact pure trivial
  | array t elements => exact (values inside elements).bind fun vs _ => newArray vs
  | hash t pairs =>
      exact (entries inside [] pairs).bind fun _ _ => modifyGet.bind fun _ _ => pure trivial
  | unary t op operand => exact (inside operand).bind fun _ _ => ofExcept _
  | binary t left op right =>
      exact (inside left).bind fun _ _ => (inside right).bind fun _ _ => ofExcept _
  | ifElse t condition consequence alternative => exact choose inside _ _ _
  | fnLit t parameters body => exact modifyGet.bind fun _ _ => pure trivial
  | macroLit t parameters body => exact fail
  | call t callee arguments =>
      simp only [Eval.form, Eval.call]
      split
      · exact quote other writes depth e arguments
      · exact (inside callee).bind fun function _ =>
          (values inside arguments).bind fun vs avoids => apply other writes function avoids
  | index t container position =>
      exact (inside container).bind fun v _ => (inside position).bind fun _ avoids =>
        index v avoids
  | piece id => exact (piece id).bind fun n _ => (inside n).any

end Written

end Eval

end MonkeyLang
