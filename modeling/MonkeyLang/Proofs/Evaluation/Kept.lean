import MonkeyLang.Proofs.Evaluation.Invariant

/-!
# What every evaluation keeps

The forms of evaluation, each over a function that evaluates the trees inside it. If that function
keeps an invariant, so does the form; and `evaluate` ties the forms together, so it keeps it by
induction on the depth.
-/

namespace MonkeyLang

namespace Eval.Invariant

variable {I : Eval.Invariant} {α β : Type} {e : ScopeId} {m : Machine}

/-! ## Computations that leave the scopes alone -/

/-- Whatever the machine is, the computation stays within the invariant. -/
def Quiet (I : Eval.Invariant) (e : ScopeId) (c : Eval α) : Prop :=
  ∀ m, I.At e m → I.Stays e m c

theorem Quiet.pure (a : α) : I.Quiet e (Pure.pure a : Eval α) := fun _ _ => .pure trivial

theorem Quiet.bind {c : Eval α} {next : α → Eval β} (first : I.Quiet e c)
    (then_ : ∀ a, I.Quiet e (next a)) : I.Quiet e (c >>= next) :=
  fun m at_ => (first m at_).bind fun a _ move _ => then_ a _ (at_.moves move)

theorem Quiet.sequential : Sequential fun α (c : Eval α) => I.Quiet e c :=
  ⟨fun a => Quiet.pure a, fun first then_ => Quiet.bind first then_⟩

/-- A computation that carries a state of its own is as quiet as its runs from each state. -/
theorem Quiet.sequential_stateT {σ : Type} :
    Sequential fun α (c : StateT σ Eval α) => ∀ s, I.Quiet e (c.run s) where
  pure a := fun s => Quiet.pure (a, s)
  bind first then_ := fun s => Quiet.bind (first s) fun (a, s') => then_ a s'

theorem Quiet.modifyGet {f : Machine → α × Machine} (h : ∀ m, (f m).2.store = m.store)
    (more : ∀ m, m.nextSerial ≤ (f m).2.nextSerial) : I.Quiet e (MonadState.modifyGet f : Eval α) :=
  fun m _ => .modifyGet (I.quiet (h m) (more m)) trivial

theorem Quiet.get : I.Quiet e (MonadState.get : Eval Machine) := fun _ _ => .get trivial

theorem Quiet.fail {fault : Fault} : I.Quiet e (Eval.fail fault : Eval α) := fun _ _ => .fail

theorem Quiet.newPiece (node : Node) : I.Quiet e (newPiece node) :=
  Quiet.modifyGet (fun _ => rfl) fun _ => Nat.le_refl _

theorem Quiet.setPiece (id : PieceId) (node : Node) : I.Quiet e (setPiece id node) :=
  Quiet.modifyGet (fun _ => rfl) fun _ => Nat.le_refl _

theorem Quiet.piece (id : PieceId) : I.Quiet e (piece id) :=
  Quiet.get.bind fun _ => Quiet.pure _

theorem Quiet.keep (node : Node) : I.Quiet e (keep node) := by
  unfold Eval.keep
  split
  · exact (Quiet.newPiece node).bind fun _ => Quiet.pure _
  · exact Quiet.pure _

theorem Quiet.keepBody (node : Node) : I.Quiet e (keepBody node) := by
  cases node with
  | fnLit t parameters body => exact (Quiet.keep body).bind fun _ => Quiet.pure _
  | _ => exact Quiet.pure _

/-- The text of a value exists or the machine halts. -/
theorem Quiet.print (v : MonkeyLang.Value) : I.Quiet e (print v) := by
  refine Quiet.bind (Quiet.get.bind fun m => ?_) fun _ =>
    Quiet.modifyGet (fun _ => rfl) fun _ => Nat.le_refl _
  cases v.inspect m.pieces with
  | ok text => exact Quiet.pure _
  | error halt => exact fun _ _ => .throw trivial

/-! ## Values -/

/-- A new number has been given out. -/
theorem Keeps.newSerial :
    I.Keeps e m newSerial fun m' serial => serial < m'.nextSerial :=
  .modifyGet (I.quiet rfl (Nat.le_succ _)) (Nat.lt_succ_self _)

theorem Keeps.newQuote (at_ : I.At e m) (node : Node) : I.Keeps e m (newQuote node) I.Value := by
  refine Keeps.bind (Quiet.sequential.transformM Quiet.keepBody node m at_) fun _ m₁ move₁ _ => ?_
  refine Keeps.bind (Quiet.keep _ m₁ (at_.moves move₁)) fun _ m₂ move₂ _ => ?_
  exact Keeps.newSerial.bind fun _ _ _ given => .pure (I.plain rfl given)

theorem Keeps.newArray {elements : List MonkeyLang.Value}
    (holds : ∀ v ∈ elements, I.Value m v) : I.Keeps e m (newArray elements) I.Value :=
  Keeps.newSerial.bind fun _ _ move given =>
    .pure (I.array given fun v hv => I.value_moves move (holds v hv))

theorem Keeps.ofExcept {result : Except Fault MonkeyLang.Value}
    (h : ∀ v, result = .ok v → I.Value m v) : I.Keeps e m (ofExcept result) I.Value := by
  cases result with
  | ok v => exact .pure (h v rfl)
  | error fault => exact .fail

theorem Keeps.name (at_ : I.At e m) (text : Text) : I.Keeps e m (name e text) I.Value := by
  have read : I.Keeps e m (MonadState.get : Eval Machine) fun m' a => m = m' ∧ m = a :=
    .get ⟨rfl, rfl⟩
  refine read.bind fun m' a _ same => ?_
  obtain ⟨rfl, rfl⟩ := same
  cases found : m.store.lookup e text with
  | some v =>
      have holds := I.lookup at_.heap at_.scope found
      cases v with
      | error fault => exact .fail
      | _ => exact .pure holds
  | none =>
      cases Builtin.ofName? text with
      | some b => exact .pure (I.plain rfl trivial)
      | none => exact .fail

/-- The operators before an operand make values without parts and numbers. -/
theorem unary_holds {op : Text} {operand v : MonkeyLang.Value}
    (h : Operator.unary op operand = .ok v) : I.Value m v := by
  unfold Operator.unary at h
  split at h <;> cases h <;> exact I.plain rfl trivial

/-- The operators between operands make values without parts and numbers. -/
theorem binary_holds {op : Text} {l r v : MonkeyLang.Value}
    (h : Operator.binary op l r = .ok v) : I.Value m v := by
  unfold Operator.binary Operator.integer Operator.string Operator.other at h
  repeat' split at h
  all_goals cases h <;> exact I.plain rfl trivial

theorem element_holds {elements : List MonkeyLang.Value} (position : MonkeyLang.Value)
    (holds : ∀ v ∈ elements, I.Value m v) : I.Value m (Operator.element elements position) := by
  unfold Operator.element
  split
  · next n =>
      split
      · exact I.plain rfl trivial
      · rw [List.getD_eq_getElem?_getD]
        cases found : elements[n.toNat]? with
        | some v => exact holds v (List.mem_of_getElem? found)
        | none => exact I.plain rfl trivial
  · exact I.plain rfl trivial

theorem entry_holds {entries : Assoc HashKey (MonkeyLang.Value × MonkeyLang.Value)} (key : HashKey)
    (holds : ∀ entry ∈ entries, I.Value m entry.2.1 ∧ I.Value m entry.2.2) :
    I.Value m (Operator.entry entries key) := by
  unfold Operator.entry
  split
  · next found => exact (holds _ (Assoc.mem_of_get? found)).2
  · exact I.plain rfl trivial

theorem Keeps.undigested {post : Machine → α → Prop} (v : MonkeyLang.Value) :
    I.Keeps e m (MonadExcept.throw (Operator.undigested v) : Eval α) post := by
  rcases Operator.undigested_cases v with halts | fails
  · rw [halts]
    exact .throw trivial
  · rw [fails]
    exact .fail

/-- What a container holds may occur if the container may. -/
theorem Keeps.index {container : MonkeyLang.Value} (position : MonkeyLang.Value)
    (holds : I.Value m container) :
    I.Keeps e m (ofExit (Operator.index container position)) I.Value := by
  cases container with
  | array serial elements => exact .pure (element_holds position (I.element holds))
  | hash serial entries =>
      unfold Operator.index
      cases position.hashKey? with
      | some key => exact .pure (entry_holds key (I.entry holds))
      | none => exact .undigested position
  | _ => exact .fail

/-! ## Builtin functions -/

theorem Keeps.single {arguments : List MonkeyLang.Value}
    (holds : ∀ v ∈ arguments, I.Value m v) :
    I.Keeps e m (Eval.ofExcept (Builtin.single arguments)) I.Value := by
  match arguments with
  | [v] => exact .pure (holds v (.head _))
  | [] | _ :: _ :: _ => exact .fail

theorem Keeps.singleArray (b : Builtin) {arguments : List MonkeyLang.Value}
    (holds : ∀ v ∈ arguments, I.Value m v) :
    I.Keeps e m (Builtin.singleArray b arguments) fun m' vs => ∀ v ∈ vs, I.Value m' v := by
  refine Keeps.bind (Keeps.single holds) fun v m' _ hv => ?_
  cases v with
  | array serial elements => exact .pure (I.element hv)
  | _ => exact .fail

theorem Keeps.builtin (at_ : I.At e m) (b : Builtin) {arguments : List MonkeyLang.Value}
    (holds : ∀ v ∈ arguments, I.Value m v) : I.Keeps e m (b.call arguments) I.Value := by
  cases b with
  | len =>
      refine Keeps.bind (Keeps.single holds) fun v _ _ _ => Keeps.ofExcept fun w hw => ?_
      unfold Builtin.length at hw
      split at hw <;> cases hw <;> exact I.plain rfl trivial
  | first =>
      refine Keeps.bind (Keeps.singleArray .first holds) fun vs _ _ hvs => .pure ?_
      cases vs with
      | nil => exact I.plain rfl trivial
      | cons v vs => exact hvs v (.head _)
  | last =>
      refine Keeps.bind (Keeps.singleArray .last holds) fun vs _ _ hvs => .pure ?_
      rcases vs.eq_nil_or_concat with rfl | ⟨init, v, rfl⟩
      · exact I.plain rfl trivial
      · rw [List.concat_eq_append, List.getLastD_concat]
        exact hvs v (by simp)
  | rest =>
      refine Keeps.bind (Keeps.singleArray .rest holds) fun vs _ move hvs => ?_
      cases vs with
      | nil => exact .pure (I.plain rfl trivial)
      | cons v vs => exact Keeps.newArray fun w hw => hvs w (.tail _ hw)
  | push =>
      match arguments with
      | [v, element] =>
        have found : I.Keeps e m (Eval.ofExcept (Builtin.elementsFor .push v))
            fun m' vs => ∀ v ∈ vs, I.Value m' v := by
          cases v with
          | array serial elements => exact .pure (I.element (holds _ (.head _)))
          | _ => exact .fail
        refine found.bind fun vs m' move hvs => Keeps.newArray fun w hw => ?_
        rcases List.mem_append.1 hw with old | new
        · exact hvs w old
        · rw [List.mem_singleton.1 new]
          exact I.value_moves move (holds element (.tail _ (.head _)))
      | [] | [_] | _ :: _ :: _ :: _ => exact .fail
  | puts =>
      have printed : I.Quiet e (arguments.forM Eval.print) := by
        clear holds
        induction arguments with
        | nil => exact Quiet.pure _
        | cons v vs ih => exact (Quiet.print v).bind fun _ => ih
      exact Keeps.bind (printed m at_) fun _ _ _ _ => .pure (I.plain rfl trivial)

/-! ## Forms over an evaluation of the trees inside them -/

section Forms

variable {run : Node → Eval MonkeyLang.Value}

theorem Keeps.sequence (hrun : ∀ node m, I.At e m → I.Keeps e m (run node) I.Value) :
    ∀ (nodes : List Node) (m : Machine), I.At e m → I.Keeps e m (sequence run nodes) I.Value
  | [], _, _ => .pure (I.plain rfl trivial)
  | [node], m, at_ => hrun node m at_
  | node :: next :: nodes, m, at_ =>
    Keeps.bind (hrun node m at_) fun _ m' move _ =>
      sequence hrun (next :: nodes) m' (at_.moves move)

theorem Keeps.values (hrun : ∀ node m, I.At e m → I.Keeps e m (run node) I.Value) :
    ∀ (nodes : List Node) (m : Machine), I.At e m →
      I.Keeps e m (values run nodes) fun m' vs => ∀ v ∈ vs, I.Value m' v
  | [], _, _ => .pure fun _ h => nomatch h
  | node :: nodes, m, at_ =>
    Keeps.bind (hrun node m at_) fun v m₁ move₁ hv =>
      Keeps.bind (values hrun nodes m₁ (at_.moves move₁)) fun vs m₂ move₂ hvs => .pure <| by
        intro w hw
        rcases List.mem_cons.1 hw with rfl | later
        · exact I.value_moves move₂ hv
        · exact hvs w later

theorem Keeps.entries (hrun : ∀ node m, I.At e m → I.Keeps e m (run node) I.Value) :
    ∀ (pairs : List (Node × Node)) (done : Assoc HashKey (MonkeyLang.Value × MonkeyLang.Value))
      (m : Machine), I.At e m → (∀ entry ∈ done, I.Value m entry.2.1 ∧ I.Value m entry.2.2) →
      I.Keeps e m (entries run done pairs) fun m' entries =>
        ∀ entry ∈ entries, I.Value m' entry.2.1 ∧ I.Value m' entry.2.2
  | [], _, _, _, holds => .pure holds
  | (keyNode, valueNode) :: pairs, done, m, at_, holds => by
    refine Keeps.bind (hrun keyNode m at_) fun key m₁ move₁ hkey => ?_
    have at₁ := at_.moves move₁
    cases key.hashKey? with
    | none => exact .undigested key
    | some digest =>
        refine Keeps.bind (hrun valueNode m₁ at₁) fun value m₂ move₂ hvalue => ?_
        refine Keeps.entries hrun pairs _ m₂ (at₁.moves move₂) fun entry mem => ?_
        rcases Assoc.mem_insert mem with old | rfl
        · have move := I.trans move₁ move₂
          exact (holds entry old).imp (I.value_moves move) (I.value_moves move)
        · exact ⟨I.value_moves move₂ hkey, hvalue⟩

theorem Keeps.choose (hrun : ∀ node m, I.At e m → I.Keeps e m (run node) I.Value)
    (condition consequence alternative : Node) (at_ : I.At e m) :
    I.Keeps e m (choose run condition consequence alternative) I.Value := by
  refine Keeps.bind (hrun condition m at_) fun value m' move _ => ?_
  have at' := at_.moves move
  split
  · exact hrun consequence m' at'
  · split
    · exact .pure (I.plain rfl trivial)
    · exact hrun alternative m' at'

/-- A caught return is a result. -/
theorem Keeps.catchReturn {c : Eval MonkeyLang.Value} (h : I.Keeps e m c I.Value) :
    I.Keeps e m (catchReturn c) I.Value := by
  refine Keeps.tryCatch h fun exit _ _ holds => ?_
  cases exit with
  | returned v => exact .pure holds
  | _ => exact .throw trivial

end Forms

/-! ## Calls -/

theorem arguments_hold {parameters : List Node} {values : List MonkeyLang.Value}
    (holds : ∀ v ∈ values, I.Value m v) :
    ∀ b ∈ Eval.arguments parameters values, I.Value m b.2 :=
  fun _ mem => holds _ (List.of_mem_zip (Assoc.mem_ofList mem)).2

/-- A computation in a new scope is a move of the scope it is called from. -/
theorem Keeps.inside (at_ : I.At e m) {outer : ScopeId} {bindings : Assoc Text MonkeyLang.Value}
    (houter : I.Scope m outer) (hbindings : ∀ b ∈ bindings, I.Value m b.2)
    {body : ScopeId → Eval MonkeyLang.Value}
    (hbody : ∀ inner m', I.At inner m' → I.Keeps inner m' (body inner) I.Value) :
    I.Keeps e m (do body (← newScope outer bindings)) I.Value := by
  have entered : I.Moves e m (m.enter (some outer) bindings) :=
    I.enter at_.heap houter hbindings
  have ran := hbody m.store.nextId (m.enter (some outer) bindings)
    ⟨I.heap_moves entered at_.heap, I.inner at_.heap houter⟩
  have run_eq : (do body (← newScope outer bindings) : Eval MonkeyLang.Value).run m =
      (body m.store.nextId).run (m.enter (some outer) bindings) := rfl
  unfold Keeps at ran ⊢
  rw [run_eq]
  cases hr : (body m.store.nextId).run (m.enter (some outer) bindings) with
  | ok v m' =>
      rw [hr] at ran
      exact ⟨I.leave entered ran.1, ran.2⟩
  | error exit m' =>
      rw [hr] at ran
      exact ⟨I.leave entered ran.1, ran.2⟩

variable {run : Node → ScopeId → Eval MonkeyLang.Value}

theorem Keeps.apply (hrun : ∀ node e m, I.At e m → I.Keeps e m (run node e) I.Value)
    (at_ : I.At e m) {callee : MonkeyLang.Value} {values : List MonkeyLang.Value}
    (hcallee : I.Value m callee) (hvalues : ∀ v ∈ values, I.Value m v) :
    I.Keeps e m (apply run callee values) I.Value := by
  cases callee with
  | function serial parameters body scope =>
      unfold Eval.apply
      dsimp only
      split
      · exact .fail
      · exact Keeps.inside at_ (I.closure hcallee) (arguments_hold hvalues)
          fun inner m' at' => Keeps.catchReturn (hrun body inner m' at')
  | builtin b => exact Keeps.builtin at_ b hvalues
  | _ => exact .fail

/-! ## Quotations -/

theorem Quiet.lift {σ : Type} {c : Eval α} (h : I.Quiet e c) :
    ∀ s, I.Quiet e ((liftM c : StateT σ Eval α).run s) :=
  fun _ => h.bind fun _ => Quiet.pure _

theorem Quiet.copyPlace (depth : Nat) (node : Node) :
    ∀ copies, I.Quiet e ((Quote.copyPlace depth node).run copies) := by
  have steps := Quiet.sequential_stateT (I := I) (e := e) (σ := Quote.Copies)
  induction depth generalizing node with
  | zero => exact steps.pure _
  | succ depth ih =>
      cases node with
      | piece id =>
          refine steps.bind (fun _ => Quiet.pure _) fun copies => ?_
          cases Assoc.get? id copies with
          | some copy => exact steps.pure _
          | none =>
              refine steps.bind (Quiet.lift (Quiet.piece id)) fun node => ?_
              refine steps.bind (Quiet.lift (Quiet.newPiece node)) fun copy => ?_
              refine steps.bind (fun _ => Quiet.pure _) fun _ => ?_
              refine steps.bind (steps.belowM ih node) fun node => ?_
              exact steps.bind (Quiet.lift (Quiet.setPiece copy node)) fun _ => steps.pure _
      | _ => exact steps.pure _

theorem Quiet.copy (node : Node) : I.Quiet e (Quote.copy node) :=
  Quiet.get.bind fun m =>
    (Quiet.sequential_stateT.transformM (Quiet.copyPlace (m.pieces.nextId + 1)) node []).bind
      fun _ => Quiet.pure _

section Unquotation

variable {run : Node → Eval MonkeyLang.Value}

theorem Keeps.unquoted (hrun : ∀ node m, I.At e m → I.Keeps e m (run node) I.Value)
    (at_ : I.At e m) (argument : Node) : I.Stays e m (Quote.unquoted run argument) := by
  refine Keeps.tryCatch ((hrun argument m at_).mono fun _ _ _ => trivial) fun exit _ _ _ => ?_
  cases exit with
  | returned v => exact .fail
  | _ => exact .throw trivial

/-- A value that has a literal or is at fault is not on its way out. -/
theorem literal_ne_returned (v w : MonkeyLang.Value) : Quote.literal v ≠ .error (.returned w) := by
  unfold Quote.literal
  intro h
  split at h
  · cases h
  · split at h <;> cases h
  · cases h
  · cases h
  · cases h

theorem Quiet.substitute? (hrun : ∀ node m, I.At e m → I.Keeps e m (run node) I.Value)
    (node : Node) : I.Quiet e (Quote.substitute? run node) := by
  unfold Quote.substitute?
  split
  · split
    · split
      · next argument =>
          refine Quiet.bind (fun m at_ => Keeps.unquoted hrun at_ argument) fun v => ?_
          cases literal : Quote.literal v with
          | ok node => exact Quiet.pure _
          | error exit =>
              cases exit with
              | returned w => exact absurd literal (literal_ne_returned v w)
              | _ => exact fun _ _ => .throw trivial
      · exact Quiet.fail
    · exact Quiet.pure _
  · exact Quiet.pure _

theorem Quiet.unquote (hrun : ∀ node m, I.At e m → I.Keeps e m (run node) I.Value)
    (depth : Nat) (node : Node) : I.Quiet e (Quote.unquote run depth node) := by
  have substituted (node kept : Node) :
      I.Quiet e (do return (← Quote.substitute? run node).getD kept) :=
    (Quiet.substitute? hrun node).bind fun _ => Quiet.pure _
  induction depth generalizing node with
  | zero =>
      cases node with
      | piece id => exact fun _ _ => .throw trivial
      | _ => exact substituted _ _
  | succ depth ih =>
      cases node with
      | piece id =>
          refine (Quiet.piece id).bind fun node => ?_
          refine (Quiet.sequential.belowM ih node).bind fun node => ?_
          exact (Quiet.setPiece id node).bind fun _ => substituted _ _
      | _ => exact substituted _ _

theorem Keeps.quote (hrun : ∀ node m, I.At e m → I.Keeps e m (run node) I.Value)
    (depth : Nat) (at_ : I.At e m) (arguments : List Node) :
    I.Keeps e m (Quote.quote run depth arguments) I.Value := by
  match arguments with
  | [node] =>
    refine Keeps.bind (Quiet.copy node m at_) fun node m₁ move₁ _ => ?_
    have at₁ := at_.moves move₁
    have searched := Quiet.sequential.transformM (Quiet.unquote hrun depth) node m₁ at₁
    exact Keeps.bind searched fun node m₂ move₂ _ => Keeps.newQuote (at₁.moves move₂) node
  | [] | _ :: _ :: _ => exact .fail

end Unquotation

/-! ## Evaluation -/

theorem Keeps.call (hrun : ∀ node e m, I.At e m → I.Keeps e m (run node e) I.Value)
    (depth : Nat) (at_ : I.At e m) (callee : Node) (arguments : List Node) :
    I.Keeps e m (call depth run e callee arguments) I.Value := by
  unfold Eval.call
  split
  · exact Keeps.quote (fun node m at_ => hrun node e m at_) depth at_ arguments
  · refine Keeps.bind (hrun callee e m at_) fun function m₁ move₁ hfunction => ?_
    have at₁ := at_.moves move₁
    refine Keeps.bind (Keeps.values (fun node m at_ => hrun node e m at_) arguments m₁ at₁)
      fun values m₂ move₂ hvalues => ?_
    exact Keeps.apply hrun (at₁.moves move₂) (I.value_moves move₂ hfunction) hvalues

/-- A form keeps the invariant if the evaluation of the trees inside it does. -/
theorem Keeps.form (hrun : ∀ node e m, I.At e m → I.Keeps e m (run node e) I.Value)
    (depth : Nat) (node : Node) (at_ : I.At e m) :
    I.Keeps e m (form depth run node e) I.Value := by
  have here (node : Node) (m : Machine) (at_ : I.At e m) := hrun node e m at_
  cases node with
  | missing => exact .fail
  | program statements => exact Keeps.catchReturn (Keeps.sequence here statements m at_)
  | block t statements => exact Keeps.sequence here statements m at_
  | letStmt t name value =>
      refine Keeps.bind (here value m at_) fun v m₁ move₁ hv => ?_
      have at₁ := at_.moves move₁
      have bound : I.Stays e m₁ (Eval.bind e name.text v) :=
        .modifyGet (I.bind at₁.heap at₁.scope hv) trivial
      exact bound.bind fun _ _ _ _ => .pure (I.plain rfl trivial)
  -- The value leaves as an exception, for which the invariant asks the same as for a result.
  | returnStmt t value =>
      exact Keeps.bind (here value m at_) fun v m₁ _ hv => .throw hv
  | exprStmt t value => exact here value m at_
  | ident t text => exact Keeps.name at_ text
  | int t value => exact .pure (I.plain rfl trivial)
  | bool t value => exact .pure (I.plain rfl trivial)
  | str t value => exact .pure (I.plain rfl trivial)
  | array t elements =>
      exact Keeps.bind (Keeps.values here elements m at_) fun vs m₁ move₁ hvs =>
        Keeps.newArray hvs
  | hash t pairs =>
      refine Keeps.bind (Keeps.entries here pairs [] m at_ fun _ h => nomatch h)
        fun entries m₁ move₁ hentries => ?_
      refine Keeps.newSerial.bind fun _ _ move₂ given => .pure (I.hash given fun entry mem => ?_)
      exact (hentries entry mem).imp (I.value_moves move₂) (I.value_moves move₂)
  | unary t op operand =>
      exact Keeps.bind (here operand m at_) fun v m₁ _ _ =>
        Keeps.ofExcept fun w hw => unary_holds hw
  | binary t left op right =>
      refine Keeps.bind (here left m at_) fun l m₁ move₁ _ => ?_
      exact Keeps.bind (here right m₁ (at_.moves move₁)) fun r m₂ _ _ =>
        Keeps.ofExcept fun w hw => binary_holds hw
  | ifElse t condition consequence alternative =>
      exact Keeps.choose here condition consequence alternative at_
  | fnLit t parameters body =>
      exact Keeps.newSerial.bind fun _ _ move given =>
        .pure (I.function given (I.scope_moves move at_.scope))
  | macroLit t parameters body => exact .fail
  | call t callee arguments => exact Keeps.call hrun depth at_ callee arguments
  | index t container position =>
      refine Keeps.bind (here container m at_) fun c m₁ move₁ hc => ?_
      exact Keeps.bind (here position m₁ (at_.moves move₁)) fun p m₂ move₂ _ =>
        Keeps.index p (I.value_moves move₂ hc)
  | piece id =>
      exact Keeps.bind (Quiet.piece id m at_) fun node m₁ move₁ _ =>
        here node m₁ (at_.moves move₁)

/-- Every evaluation keeps the invariant: the machine moves as the scope allows, and the result or
the value on its way out may occur. -/
theorem evaluate (I : Eval.Invariant) (depth : Nat) (node : Node) (e : ScopeId) (m : Machine)
    (at_ : I.At e m) : I.Keeps e m (MonkeyLang.evaluate depth node e) I.Value := by
  -- One form is evaluated at each depth, so the depth is what the trees inside it have less of.
  induction depth generalizing node e m with
  | zero => exact .throw trivial
  | succ depth ih => exact Keeps.form ih depth node at_

end Eval.Invariant

end MonkeyLang
