import Mathlib.Data.List.Forall2
import MonkeyLang.Node.Render
import MonkeyLang.Node.Transform
import MonkeyLang.Proofs.Grammar.Lexical
import MonkeyLang.Proofs.Node.Renamed

/-!
# Trees that are like each other

Where the tokens of a tree stood in its text, and which numbers the pieces it refers to have, makes
no difference to what it is. `Node.Like Places Names` relates trees that differ in nothing else: the
numbers of pieces are related by `Places`, and all names in the trees have the property `Names`.

* `Node.Like.render_eq`: trees that are like each other have the same text.
* `Coupling.transformM`: two transformations keep trees like each other if their steps do, whatever
  effects these have.
-/

namespace MonkeyLang

/-- Trees that differ only in the positions of their tokens and the numbers of their pieces. -/
inductive Node.Like (Places : PieceId → PieceId → Prop) (Names : Text → Prop) :
    Node → Node → Prop
  | missing : Like Places Names .missing .missing
  | program {ss ss' : List Node} : ss.length = ss'.length →
    (∀ p ∈ ss.zip ss', Like Places Names p.1 p.2) →
    Like Places Names (.program ss) (.program ss')
  | block {t t' : Option Token} {ss ss' : List Node} : t.map Token.word = t'.map Token.word →
    ss.length = ss'.length → (∀ p ∈ ss.zip ss', Like Places Names p.1 p.2) →
    Like Places Names (.block t ss) (.block t' ss')
  | letStmt {t t' u u' : Option Token} {name : Text} {value value' : Node} :
    t.map Token.word = t'.map Token.word → u.map Token.word = u'.map Token.word → Names name →
    Like Places Names value value' →
    Like Places Names (.letStmt t ⟨u, name⟩ value) (.letStmt t' ⟨u', name⟩ value')
  | returnStmt {t t' : Option Token} {value value' : Node} :
    t.map Token.word = t'.map Token.word → Like Places Names value value' →
    Like Places Names (.returnStmt t value) (.returnStmt t' value')
  | exprStmt {t t' : Option Token} {value value' : Node} :
    t.map Token.word = t'.map Token.word → Like Places Names value value' →
    Like Places Names (.exprStmt t value) (.exprStmt t' value')
  | ident {t t' : Option Token} {name : Text} : t.map Token.word = t'.map Token.word →
    Names name → Like Places Names (.ident t name) (.ident t' name)
  | int {t t' : Option Token} {value : Int} : t.map Token.word = t'.map Token.word →
    Like Places Names (.int t value) (.int t' value)
  | bool {t t' : Option Token} {value : Bool} : t.map Token.word = t'.map Token.word →
    Like Places Names (.bool t value) (.bool t' value)
  | str {t t' : Option Token} {value : Text} : t.map Token.word = t'.map Token.word →
    Like Places Names (.str t value) (.str t' value)
  | array {t t' : Option Token} {es es' : List Node} : t.map Token.word = t'.map Token.word →
    es.length = es'.length → (∀ p ∈ es.zip es', Like Places Names p.1 p.2) →
    Like Places Names (.array t es) (.array t' es')
  | hash {t t' : Option Token} {ps ps' : List (Node × Node)} :
    t.map Token.word = t'.map Token.word → ps.length = ps'.length →
    (∀ p ∈ ps.zip ps', Like Places Names p.1.1 p.2.1) →
    (∀ p ∈ ps.zip ps', Like Places Names p.1.2 p.2.2) →
    Like Places Names (.hash t ps) (.hash t' ps')
  | unary {t t' : Option Token} {op : Text} {operand operand' : Node} :
    t.map Token.word = t'.map Token.word → Like Places Names operand operand' →
    Like Places Names (.unary t op operand) (.unary t' op operand')
  | binary {t t' : Option Token} {op : Text} {left left' right right' : Node} :
    t.map Token.word = t'.map Token.word → Like Places Names left left' →
    Like Places Names right right' →
    Like Places Names (.binary t left op right) (.binary t' left' op right')
  | ifElse {t t' : Option Token} {condition condition' consequence consequence' : Node}
      {alternative alternative' : Node} :
    t.map Token.word = t'.map Token.word → Like Places Names condition condition' →
    Like Places Names consequence consequence' → Like Places Names alternative alternative' →
    Like Places Names (.ifElse t condition consequence alternative)
      (.ifElse t' condition' consequence' alternative')
  | fnLit {t t' : Option Token} {ps ps' : List Node} {body body' : Node} :
    t.map Token.word = t'.map Token.word → ps.length = ps'.length →
    (∀ p ∈ ps.zip ps', Like Places Names p.1 p.2) → Like Places Names body body' →
    Like Places Names (.fnLit t ps body) (.fnLit t' ps' body')
  | macroLit {t t' : Option Token} {ps ps' : List Node} {body body' : Node} :
    t.map Token.word = t'.map Token.word → ps.length = ps'.length →
    (∀ p ∈ ps.zip ps', Like Places Names p.1 p.2) → Like Places Names body body' →
    Like Places Names (.macroLit t ps body) (.macroLit t' ps' body')
  | call {t t' : Option Token} {callee callee' : Node} {as as' : List Node} :
    t.map Token.word = t'.map Token.word → Like Places Names callee callee' →
    as.length = as'.length → (∀ p ∈ as.zip as', Like Places Names p.1 p.2) →
    Like Places Names (.call t callee as) (.call t' callee' as')
  | index {t t' : Option Token} {container container' position position' : Node} :
    t.map Token.word = t'.map Token.word → Like Places Names container container' →
    Like Places Names position position' →
    Like Places Names (.index t container position) (.index t' container' position')
  | piece {id id' : PieceId} : Places id id' → Like Places Names (.piece id) (.piece id')

namespace Node

/-- Two rows of trees, each like the one in the same place. -/
abbrev LikeAll (Places : PieceId → PieceId → Prop) (Names : Text → Prop) :
    List Node → List Node → Prop :=
  List.Forall₂ (Like Places Names)

namespace LikeAll

variable {Places Places' : PieceId → PieceId → Prop} {Names : Text → Prop}
  {nodes nodes' : List Node}

theorem of_zip (length : nodes.length = nodes'.length)
    (each : ∀ p ∈ nodes.zip nodes', Like Places Names p.1 p.2) :
    LikeAll Places Names nodes nodes' :=
  List.forall₂_iff_zip.2 ⟨length, fun mem => each _ mem⟩

theorem length (h : LikeAll Places Names nodes nodes') : nodes.length = nodes'.length :=
  List.Forall₂.length_eq h

theorem each (h : LikeAll Places Names nodes nodes') :
    ∀ p ∈ nodes.zip nodes', Like Places Names p.1 p.2 :=
  fun _ mem => (List.forall₂_iff_zip.1 h).2 mem

end LikeAll

namespace Like

variable {Places Places' : PieceId → PieceId → Prop} {Names Names' : Text → Prop}
  {node node' : Node}

theorem mono (h : Like Places Names node node') (places : ∀ id id', Places id id' → Places' id id')
    (names : ∀ name, Names name → Names' name) : Like Places' Names' node node' := by
  induction h with
  | missing => exact .missing
  | program length _ ih => exact .program length ih
  | block t length _ ih => exact .block t length ih
  | letStmt t u name _ ih => exact .letStmt t u (names _ name) ih
  | returnStmt t _ ih => exact .returnStmt t ih
  | exprStmt t _ ih => exact .exprStmt t ih
  | ident t name => exact .ident t (names _ name)
  | int t => exact .int t
  | bool t => exact .bool t
  | str t => exact .str t
  | array t length _ ih => exact .array t length ih
  | hash t length _ _ ihKey ihValue => exact .hash t length ihKey ihValue
  | unary t _ ih => exact .unary t ih
  | binary t _ _ ihLeft ihRight => exact .binary t ihLeft ihRight
  | ifElse t _ _ _ ihCondition ihThen ihElse => exact .ifElse t ihCondition ihThen ihElse
  | fnLit t length _ _ ihParameter ihBody => exact .fnLit t length ihParameter ihBody
  | macroLit t length _ _ ihParameter ihBody => exact .macroLit t length ihParameter ihBody
  | call t _ length _ ihCallee ihArgument => exact .call t ihCallee length ihArgument
  | index t _ _ ihContainer ihPosition => exact .index t ihContainer ihPosition
  | piece place => exact .piece (places _ _ place)

theorem isMissing_eq (h : Like Places Names node node') : node.isMissing = node'.isMissing := by
  cases h <;> rfl

theorem isCompound_eq (h : Like Places Names node node') : node.isCompound = node'.isCompound := by
  cases h <;> rfl

theorem isIdent_eq (h : Like Places Names node node') (name : Text) :
    node.isIdent name = node'.isIdent name := by
  cases h <;> rfl

/-- Two trees that are like each other are places of pieces, or neither of them is one. -/
theorem piece_or (h : Like Places Names node node') :
    (∃ id id', node = .piece id ∧ node' = .piece id' ∧ Places id id') ∨
      (∀ id, node ≠ .piece id) ∧ ∀ id, node' ≠ .piece id := by
  cases h with
  | piece place => exact .inl ⟨_, _, rfl, rfl, place⟩
  | _ => exact .inr ⟨fun _ => nofun, fun _ => nofun⟩

theorem statements (h : Like Places Names node node') :
    LikeAll Places Names node.statements node'.statements := by
  cases h with
  | program length each => exact .of_zip length each
  | _ => exact .nil

/-- A tree is like itself if the pieces it refers to are. -/
theorem of_refers (names : ∀ name, Names name) {node : Node}
    (places : ∀ id, node.Refers id → Places id id) : Like Places Names node node := by
  induction node using childInduction with
  | step node ih =>
    have child (c : Node) (mem : c ∈ node.children) : Like Places Names c c :=
      ih c mem fun id refers => places id (.child mem refers)
    have row {ns : List Node} (inside : ∀ n ∈ ns, n ∈ node.children) :
        ∀ p ∈ ns.zip ns, Like Places Names p.1 p.2 := fun p mem =>
      (List.forall₂_iff_zip.1 (List.forall₂_same.2 fun n mem => child n (inside n mem))).2 mem
    cases node with
    | missing => exact .missing
    | program ss => exact .program rfl (row fun _ => id)
    | block t ss => exact .block rfl rfl (row fun _ => id)
    | letStmt t name value => exact .letStmt rfl rfl (names _) (child _ (.head _))
    | returnStmt t value => exact .returnStmt rfl (child _ (.head _))
    | exprStmt t value => exact .exprStmt rfl (child _ (.head _))
    | ident t name => exact .ident rfl (names _)
    | int => exact .int rfl
    | bool => exact .bool rfl
    | str => exact .str rfl
    | array t es => exact .array rfl rfl (row fun _ => id)
    | hash t ps =>
        have likes : List.Forall₂ (fun p p' : Node × Node =>
            Like Places Names p.1 p'.1 ∧ Like Places Names p.2 p'.2) ps ps :=
          List.forall₂_same.2 fun p mem => ⟨child _ (List.mem_flatMap.2 ⟨p, mem, .head _⟩),
            child _ (List.mem_flatMap.2 ⟨p, mem, .tail _ (.head _)⟩)⟩
        exact .hash rfl rfl (fun _ mem => ((List.forall₂_iff_zip.1 likes).2 mem).1)
          fun _ mem => ((List.forall₂_iff_zip.1 likes).2 mem).2
    | unary t op operand => exact .unary rfl (child _ (.head _))
    | binary t left op right => exact .binary rfl (child _ (.head _)) (child _ (.tail _ (.head _)))
    | ifElse t condition consequence alternative =>
        exact .ifElse rfl (child _ (.head _)) (child _ (.tail _ (.head _)))
          (child _ (.tail _ (.tail _ (.head _))))
    | fnLit t ps body =>
        exact .fnLit rfl rfl (row fun _ => List.mem_append_left _)
          (child _ (List.mem_append_right _ (.head _)))
    | macroLit t ps body =>
        exact .macroLit rfl rfl (row fun _ => List.mem_append_left _)
          (child _ (List.mem_append_right _ (.head _)))
    | call t callee as => exact .call rfl (child _ (.head _)) rfl (row fun _ => .tail _)
    | index t container position =>
        exact .index rfl (child _ (.head _)) (child _ (.tail _ (.head _)))
    | piece id => exact .piece (places id .piece)

/-- Any tree is like itself. -/
theorem refl (places : ∀ id, Places id id) (names : ∀ name, Names name) (node : Node) :
    Like Places Names node node :=
  of_refers names fun id _ => places id

/-! ### Texts -/

theorem contentText_eq (h : Like Places Names node node') {text text' : Text}
    (same : text = text') : node.contentText text = node'.contentText text' := by
  rw [contentText, contentText, h.isMissing_eq, same]

theorem renderAll_eq {nodes nodes' : List Node} (length : nodes.length = nodes'.length)
    (each : ∀ p ∈ nodes.zip nodes', p.1.render = p.2.render) :
    renderAll nodes = renderAll nodes' := by
  have all : List.Forall₂ (fun n n' : Node => n.render = n'.render) nodes nodes' :=
    List.forall₂_iff_zip.2 ⟨length, fun mem => each _ mem⟩
  induction all with
  | nil => rfl
  | cons first _ ih =>
      rw [renderAll, renderAll, first]
      exact congrArg _ (ih (Nat.succ.inj length) fun p mem => each p (.tail _ mem))

theorem renderPairs_eq {pairs pairs' : List (Node × Node)} (length : pairs.length = pairs'.length)
    (keys : ∀ p ∈ pairs.zip pairs', p.1.1.render = p.2.1.render)
    (values : ∀ p ∈ pairs.zip pairs', p.1.2.render = p.2.2.render) :
    renderPairs pairs = renderPairs pairs' := by
  have all : List.Forall₂ (fun p p' : Node × Node => p.1.render = p'.1.render ∧
      p.2.render = p'.2.render) pairs pairs' :=
    List.forall₂_iff_zip.2 ⟨length, fun mem => ⟨keys _ mem, values _ mem⟩⟩
  clear length keys values
  induction all with
  | nil => rfl
  | @cons p p' _ _ first _ ih =>
      rw [renderPairs, renderPairs, ih, first.1, first.2]

/-- Positions and numbers are not written. -/
theorem render_eq (h : Like Places Names node node') : node.render = node'.render := by
  induction h with
  | program length _ ih => rw [render, render, renderAll_eq length ih]
  | block _ length _ ih => rw [render, render, renderAll_eq length ih]
  | letStmt _ _ _ like ih => rw [render, render, like.contentText_eq ih]
  | returnStmt _ like ih => rw [render, render, like.contentText_eq ih]
  | exprStmt _ like ih => rw [render, render, like.contentText_eq ih]
  | array _ length _ ih => rw [render, render, renderAll_eq length ih]
  | hash _ length _ _ ihKey ihValue => rw [render, render, renderPairs_eq length ihKey ihValue]
  | unary _ _ ih => rw [render, render, ih]
  | binary _ _ _ ihLeft ihRight => rw [render, render, ihLeft, ihRight]
  | ifElse _ _ _ like ihCondition ihThen ihElse =>
      rw [render, render, ihCondition, ihThen, like.contentText_eq (congrArg _ ihElse)]
  | fnLit _ length _ _ ih ihBody => rw [render, render, renderAll_eq length ih, ihBody]
  | macroLit _ length _ _ ih ihBody => rw [render, render, renderAll_eq length ih, ihBody]
  | call _ _ length _ ihCallee ih => rw [render, render, ihCallee, renderAll_eq length ih]
  | index _ _ _ ihContainer ihPosition => rw [render, render, ihContainer, ihPosition]
  | missing | ident _ _ | int _ | bool _ | str _ | piece _ => rfl

end Like

theorem giveM_of_isMissing_eq_false {m : Type → Type} [Monad m] (f : Node → m Node) {node : Node}
    (h : node.isMissing = false) : giveM f node = f node := by
  cases node with
  | missing => cases h
  | _ => rfl

end Node

/-! ## Transformations -/

section

variable {m : Type → Type} [Monad m]

/-- `K α b c c' post` is to say of two computations, which start where there are `b` pieces on one
side, that they end alike, and `post` holds of the number of pieces then and of their results. It is
such a relation if computations without effect have it and sequences keep it. -/
structure Coupling (K : (α : Type) → Nat → m α → m α → (Nat → α → α → Prop) → Prop) : Prop where
  pure : ∀ {α : Type} {b : Nat} {post : Nat → α → α → Prop} {a a' : α}, post b a a' →
    K α b (pure a) (pure a') post
  bind : ∀ {α β : Type} {b : Nat} {c c' : m α} {next next' : α → m β} {mid : Nat → α → α → Prop}
    {post : Nat → β → β → Prop}, K α b c c' mid →
    (∀ b' a a', b ≤ b' → mid b' a a' → K β b' (next a) (next' a') post) →
    K β b (c >>= next) (c' >>= next') post

/-- The steps of two transformations keep trees like each other. The places of pieces that they
are given are those of the tree that is transformed; the results may have other ones, and the more
pieces there are, the more places can be related. -/
structure Coupling.Steps (K : (α : Type) → Nat → m α → m α → (Nat → α → α → Prop) → Prop)
    (Given : PieceId → PieceId → Prop) (Places : Nat → PieceId → PieceId → Prop)
    (Names : Text → Prop) (b₀ : Nat) (f f' : Node → m Node) : Prop where
  mono : ∀ {b b' id id'}, b ≤ b' → Places b id id' → Places b' id id'
  given : ∀ {id id'}, Given id id' → Places b₀ id id'
  step : ∀ {b node node'}, b₀ ≤ b → node.Like (Places b) Names node' →
    (∀ id id', node = .piece id → node' = .piece id' → Given id id') →
    K Node b (f node) (f' node') fun b' => Node.Like (Places b') Names

namespace Coupling

variable {K : (α : Type) → Nat → m α → m α → (Nat → α → α → Prop) → Prop}
  {Given : PieceId → PieceId → Prop} {Places : Nat → PieceId → PieceId → Prop}
  {Names : Text → Prop} {b₀ : Nat} {f f' : Node → m Node}

theorem mono [LawfulMonad m] (h : Coupling K) {α : Type} {b : Nat} {c c' : m α}
    {post post' : Nat → α → α → Prop} (couple : K α b c c' post)
    (weaker : ∀ b' a a', b ≤ b' → post b' a a' → post' b' a a') : K α b c c' post' := by
  have again := h.bind couple fun b' a a' more holds => h.pure (weaker b' a a' more holds)
  rwa [bind_pure, bind_pure] at again

/-- What comes of two trees before they are given over themselves. -/
structure Below (Given : PieceId → PieceId → Prop) (Places : Nat → PieceId → PieceId → Prop)
    (Names : Text → Prop) (b : Nat) (node node' : Node) : Prop where
  like : node.Like (Places b) Names node'
  given : ∀ id id', node = .piece id → node' = .piece id' → Given id id'

theorem giveM (h : Coupling K) (steps : Steps K Given Places Names b₀ f f') {b : Nat}
    (later : b₀ ≤ b) {node node' : Node} (below : Below Given Places Names b node node') :
    K Node b (Node.giveM f node) (Node.giveM f' node') fun b' =>
      Node.Like (Places b') Names := by
  cases missing : node.isMissing with
  | true =>
      cases below.like with
      | missing => exact h.pure .missing
      | _ => cases missing
  | false =>
      rw [Node.giveM_of_isMissing_eq_false f missing,
        Node.giveM_of_isMissing_eq_false f' (below.like.isMissing_eq ▸ missing)]
      exact steps.step later below.like below.given

variable {β : Type} {next next' : Node → m β} {post : Nat → β → β → Prop} {b : Nat}

/-- A place below a node: what stands there is transformed, given over, and goes on in the place. -/
theorem place (h : Coupling K) (steps : Steps K Given Places Names b₀ f f') (later : b₀ ≤ b)
    {below below' : m Node} (couple : K Node b below below' (Below Given Places Names))
    (then_ : ∀ b' result result', b ≤ b' → result.Like (Places b') Names result' →
      K β b' (next result) (next' result') post) :
    K β b (do next (← Node.giveM f (← below))) (do next' (← Node.giveM f' (← below'))) post :=
  h.bind couple fun _ _ _ more₁ both =>
    h.bind (h.giveM steps (Nat.le_trans later more₁) both) fun _ _ _ more₂ like =>
      then_ _ _ _ (Nat.le_trans more₁ more₂) like

/-- In rows of trees each is transformed and given over in its turn. -/
theorem belowAllM (h : Coupling K) (steps : Steps K Given Places Names b₀ f f')
    {nodes nodes' : List Node}
    (each : List.Forall₂ (fun n n' => ∀ b, b₀ ≤ b →
      K Node b (n.belowM f) (n'.belowM f') (Below Given Places Names)) nodes nodes') :
    ∀ b, b₀ ≤ b → K (List Node) b (Node.belowAllM f nodes) (Node.belowAllM f' nodes') fun b' =>
      Node.LikeAll (Places b') Names := by
  induction each with
  | nil => exact fun _ _ => h.pure .nil
  | cons first _ ih =>
      intro b later
      refine h.place steps later (first b later) fun b₁ _ _ more₁ like => ?_
      refine h.bind (ih b₁ (Nat.le_trans later more₁)) fun b₂ _ _ more₂ likes => h.pure ?_
      exact .cons (like.mono (fun _ _ => steps.mono more₂) fun _ => id) likes

theorem belowPairsM (h : Coupling K) (steps : Steps K Given Places Names b₀ f f')
    {pairs pairs' : List (Node × Node)}
    (each : List.Forall₂ (fun p p' => ∀ b, b₀ ≤ b →
      K Node b (p.1.belowM f) (p'.1.belowM f') (Below Given Places Names) ∧
      K Node b (p.2.belowM f) (p'.2.belowM f') (Below Given Places Names)) pairs pairs') :
    ∀ b, b₀ ≤ b → K (List (Node × Node)) b (Node.belowPairsM f pairs) (Node.belowPairsM f' pairs')
      fun b' => List.Forall₂ fun p p' : Node × Node =>
        p.1.Like (Places b') Names p'.1 ∧ p.2.Like (Places b') Names p'.2 := by
  have grown {b b' : Nat} (more : b ≤ b') {n n' : Node} (like : n.Like (Places b) Names n') :
      n.Like (Places b') Names n' :=
    like.mono (fun _ _ => steps.mono more) fun _ => id
  induction each with
  | nil => exact fun _ _ => h.pure .nil
  | cons first _ ih =>
      intro b later
      refine h.place steps later (first b later).1 fun b₁ _ _ more₁ key => ?_
      have later₁ := Nat.le_trans later more₁
      refine h.place steps later₁ (first b₁ later₁).2 fun b₂ _ _ more₂ value => ?_
      refine h.bind (ih b₂ (Nat.le_trans later₁ more₂)) fun b₃ _ _ more₃ others => h.pure ?_
      exact .cons ⟨grown (Nat.le_trans more₂ more₃) key, grown more₃ value⟩ others

theorem belowM (h : Coupling K) (steps : Steps K Given Places Names b₀ f f') {node node' : Node}
    (like : node.Like Given Names node') : ∀ b, b₀ ≤ b →
      K Node b (node.belowM f) (node'.belowM f') (Below Given Places Names) := by
  have grown {b b' : Nat} (more : b ≤ b') {n n' : Node} (like : n.Like (Places b) Names n') :
      n.Like (Places b') Names n' :=
    like.mono (fun _ _ => steps.mono more) fun _ => id
  have all {ss ss' : List Node} (length : ss.length = ss'.length)
      (each : ∀ p ∈ ss.zip ss', ∀ b, b₀ ≤ b →
        K Node b (p.1.belowM f) (p.2.belowM f') (Below Given Places Names)) :=
    h.belowAllM steps (List.forall₂_iff_zip.2 ⟨length, fun mem => each _ mem⟩)
  induction like with
  | missing => exact fun _ _ => h.pure ⟨.missing, nofun⟩
  | program length _ ih =>
      intro b later
      refine h.bind (all length ih b later) fun _ _ _ _ likes => h.pure ⟨?_, nofun⟩
      exact .program likes.length likes.each
  | block t length _ ih =>
      intro b later
      refine h.bind (all length ih b later) fun _ _ _ _ likes => h.pure ⟨?_, nofun⟩
      exact .block t likes.length likes.each
  | letStmt t u name _ ih =>
      intro b later
      exact h.place steps later (ih b later) fun _ _ _ _ like =>
        h.pure ⟨.letStmt t u name like, nofun⟩
  | returnStmt t _ ih =>
      intro b later
      exact h.place steps later (ih b later) fun _ _ _ _ like =>
        h.pure ⟨.returnStmt t like, nofun⟩
  | exprStmt t _ ih =>
      intro b later
      exact h.place steps later (ih b later) fun _ _ _ _ like => h.pure ⟨.exprStmt t like, nofun⟩
  | ident t name => exact fun _ _ => h.pure ⟨.ident t name, nofun⟩
  | int t => exact fun _ _ => h.pure ⟨.int t, nofun⟩
  | bool t => exact fun _ _ => h.pure ⟨.bool t, nofun⟩
  | str t => exact fun _ _ => h.pure ⟨.str t, nofun⟩
  | array t length _ ih =>
      intro b later
      refine h.bind (all length ih b later) fun _ _ _ _ likes => h.pure ⟨?_, nofun⟩
      exact .array t likes.length likes.each
  | hash t length _ _ ihKey ihValue =>
      intro b later
      have pairs := h.belowPairsM steps <| List.forall₂_iff_zip.2
        ⟨length, fun {p p'} mem b later => ⟨ihKey (p, p') mem b later, ihValue (p, p') mem b later⟩⟩
      refine h.bind (pairs b later) fun _ _ _ _ likes => h.pure ⟨?_, nofun⟩
      exact .hash t likes.length_eq (fun p mem => ((List.forall₂_iff_zip.1 likes).2 mem).1)
        fun p mem => ((List.forall₂_iff_zip.1 likes).2 mem).2
  | unary t _ ih =>
      intro b later
      exact h.place steps later (ih b later) fun _ _ _ _ like => h.pure ⟨.unary t like, nofun⟩
  | binary t _ _ ihLeft ihRight =>
      intro b later
      refine h.place steps later (ihLeft b later) fun b₁ _ _ more₁ left => ?_
      have later₁ := Nat.le_trans later more₁
      refine h.place steps later₁ (ihRight b₁ later₁) fun b₂ _ _ more₂ right => ?_
      exact h.pure ⟨.binary t (grown more₂ left) right, nofun⟩
  | ifElse t _ _ _ ihCondition ihThen ihElse =>
      intro b later
      refine h.place steps later (ihCondition b later) fun b₁ _ _ more₁ condition => ?_
      have later₁ := Nat.le_trans later more₁
      refine h.place steps later₁ (ihThen b₁ later₁) fun b₂ _ _ more₂ consequence => ?_
      have later₂ := Nat.le_trans later₁ more₂
      refine h.place steps later₂ (ihElse b₂ later₂) fun b₃ _ _ more₃ alternative => ?_
      have condition := grown (Nat.le_trans more₂ more₃) condition
      exact h.pure ⟨.ifElse t condition (grown more₃ consequence) alternative, nofun⟩
  | fnLit t length _ _ ih ihBody =>
      intro b later
      refine h.bind (all length ih b later) fun b₁ _ _ more₁ parameters => ?_
      have later₁ := Nat.le_trans later more₁
      refine h.place steps later₁ (ihBody b₁ later₁) fun b₂ _ _ more₂ body => h.pure ⟨?_, nofun⟩
      exact .fnLit t parameters.length (fun p mem => grown more₂ (parameters.each p mem)) body
  | macroLit t length _ _ ih ihBody =>
      intro b later
      refine h.bind (all length ih b later) fun b₁ _ _ more₁ parameters => ?_
      have later₁ := Nat.le_trans later more₁
      refine h.place steps later₁ (ihBody b₁ later₁) fun b₂ _ _ more₂ body => h.pure ⟨?_, nofun⟩
      exact .macroLit t parameters.length (fun p mem => grown more₂ (parameters.each p mem)) body
  | call t _ length _ ihCallee ih =>
      intro b later
      refine h.place steps later (ihCallee b later) fun b₁ _ _ more₁ callee => ?_
      have later₁ := Nat.le_trans later more₁
      refine h.bind (all length ih b₁ later₁) fun b₂ _ _ more₂ arguments => h.pure ⟨?_, nofun⟩
      exact .call t (grown more₂ callee) arguments.length arguments.each
  | index t _ _ ihContainer ihPosition =>
      intro b later
      refine h.place steps later (ihContainer b later) fun b₁ _ _ more₁ container => ?_
      have later₁ := Nat.le_trans later more₁
      refine h.place steps later₁ (ihPosition b₁ later₁) fun b₂ _ _ more₂ position => ?_
      exact h.pure ⟨.index t (grown more₂ container) position, nofun⟩
  | @piece id id' place =>
      intro b later
      refine h.pure ⟨.piece (steps.mono later (steps.given place)), fun i i' same same' => ?_⟩
      cases same
      cases same'
      exact place

/-- Transformations whose steps keep trees like each other make such trees of them. -/
theorem transformM (h : Coupling K) (steps : Steps K Given Places Names b₀ f f')
    {node node' : Node} (like : node.Like Given Names node') :
    K Node b₀ (node.transformM f) (node'.transformM f') fun b' => Node.Like (Places b') Names :=
  h.bind (h.belowM steps like b₀ (Nat.le_refl _)) fun _ _ _ more both => h.giveM steps more both

end Coupling

end

end MonkeyLang
