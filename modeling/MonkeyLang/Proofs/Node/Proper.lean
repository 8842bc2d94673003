import MonkeyLang.Node.Transform
import MonkeyLang.Proofs.Grammar.WellFormed

/-!
# Proper trees

A tree is proper if every place in it holds a node of the category that belongs there, every
operator is one of the language and every integer can be written. While programs run, pieces of
program are kept apart from the trees in which they stand; which category of place a piece belongs
in is its role.

* `Node.Proper roles category node` says so of a tree whose pieces have the given roles.
* `Node.fits.proper`: a well-formed tree of a program text is proper.
* `Tracks.transformM`: what makes proper nodes of proper nodes, keeping their categories, makes a
  proper tree of a proper tree.
-/

namespace MonkeyLang

open Grammar

/-- The categories of places in which pieces stand. -/
def Roles : Type := PieceId → Option Category

namespace Roles

/-- No pieces. -/
def none : Roles := fun _ => .none

/-- One more piece. -/
def add (roles : Roles) (id : PieceId) (category : Category) : Roles :=
  fun other => if other = id then some category else roles other

/-- All pieces keep their roles. -/
def Le (roles roles' : Roles) : Prop :=
  ∀ id category, roles id = some category → roles' id = some category

variable {roles roles₁ roles₂ roles₃ : Roles}

theorem Le.refl : roles.Le roles := fun _ _ h => h

theorem Le.trans (h₁ : roles₁.Le roles₂) (h₂ : roles₂.Le roles₃) : roles₁.Le roles₃ :=
  fun id category h => h₂ id category (h₁ id category h)

theorem le_add {id : PieceId} {category : Category} (new : roles id = .none) :
    roles.Le (roles.add id category) := by
  intro other category' role
  have old : other ≠ id := by
    rintro rfl
    rw [new] at role
    cases role
  rwa [add, if_neg old]

theorem add_self (id : PieceId) (category : Category) :
    roles.add id category id = some category := if_pos rfl

end Roles

/-- The node and all below it are such as belong in a place of the category. -/
inductive Node.Proper (roles : Roles) : Category → Node → Prop
  | program {statements : List Node} :
    (∀ s ∈ statements, Proper roles .statement s) → Proper roles .program (.program statements)
  | block {t : Option Token} {statements : List Node} :
    (∀ s ∈ statements, Proper roles .statement s) → Proper roles .block (.block t statements)
  | letStmt {t : Option Token} {name : Name} {value : Node} :
    Proper roles .expression value → Proper roles .statement (.letStmt t name value)
  | returnStmt {t : Option Token} {value : Node} :
    Proper roles .expression value → Proper roles .statement (.returnStmt t value)
  | exprStmt {t : Option Token} {value : Node} :
    Proper roles .expression value → Proper roles .statement (.exprStmt t value)
  | parameter {t : Option Token} {name : Text} : Proper roles .parameter (.ident t name)
  | ident {t : Option Token} {name : Text} : Proper roles .expression (.ident t name)
  | int {t : Option Token} {n : Int} :
    Decimal.isOverlong n = false → Proper roles .expression (.int t n)
  | bool {t : Option Token} {b : Bool} : Proper roles .expression (.bool t b)
  | str {t : Option Token} {s : Text} : Proper roles .expression (.str t s)
  | array {t : Option Token} {elements : List Node} :
    (∀ e ∈ elements, Proper roles .expression e) → Proper roles .expression (.array t elements)
  | hash {t : Option Token} {pairs : List (Node × Node)} :
    (∀ p ∈ pairs, Proper roles .expression p.1) → (∀ p ∈ pairs, Proper roles .expression p.2) →
    Proper roles .expression (.hash t pairs)
  | unary {t : Option Token} {op : Text} {operand : Node} :
    (unaryOperators.lookup op).isSome → Proper roles .expression operand →
    Proper roles .expression (.unary t op operand)
  | binary {t : Option Token} {op : Text} {left right : Node} :
    (binaryOperators.lookup op).isSome → Proper roles .expression left →
    Proper roles .expression right → Proper roles .expression (.binary t left op right)
  | ifThen {t : Option Token} {condition consequence : Node} :
    Proper roles .expression condition → Proper roles .block consequence →
    Proper roles .expression (.ifElse t condition consequence .missing)
  | ifElse {t : Option Token} {condition consequence alternative : Node} :
    Proper roles .expression condition → Proper roles .block consequence →
    Proper roles .block alternative →
    Proper roles .expression (.ifElse t condition consequence alternative)
  | fnLit {t : Option Token} {parameters : List Node} {body : Node} :
    (∀ p ∈ parameters, Proper roles .parameter p) → Proper roles .block body →
    Proper roles .expression (.fnLit t parameters body)
  | macroLit {t : Option Token} {parameters : List Node} {body : Node} :
    (∀ p ∈ parameters, Proper roles .parameter p) → Proper roles .block body →
    Proper roles .expression (.macroLit t parameters body)
  | call {t : Option Token} {callee : Node} {arguments : List Node} :
    Proper roles .expression callee → (∀ a ∈ arguments, Proper roles .expression a) →
    Proper roles .expression (.call t callee arguments)
  | index {t : Option Token} {container position : Node} :
    Proper roles .expression container → Proper roles .expression position →
    Proper roles .expression (.index t container position)
  /-- A parameter is never a piece. -/
  | piece {id : PieceId} {category : Category} :
    roles id = some category → category ≠ .parameter → Proper roles category (.piece id)

namespace Node.Proper

variable {roles roles' : Roles} {category : Category} {node : Node}

theorem mono (h : node.Proper roles category) (more : roles.Le roles') :
    node.Proper roles' category := by
  induction h with
  | program _ ih => exact .program ih
  | block _ ih => exact .block ih
  | letStmt _ ih => exact .letStmt ih
  | returnStmt _ ih => exact .returnStmt ih
  | exprStmt _ ih => exact .exprStmt ih
  | parameter => exact .parameter
  | ident => exact .ident
  | int short => exact .int short
  | bool => exact .bool
  | str => exact .str
  | array _ ih => exact .array ih
  | hash _ _ ihKey ihValue => exact .hash ihKey ihValue
  | unary known _ ih => exact .unary known ih
  | binary known _ _ ihLeft ihRight => exact .binary known ihLeft ihRight
  | ifThen _ _ ihCondition ihThen => exact .ifThen ihCondition ihThen
  | ifElse _ _ _ ihCondition ihThen ihElse => exact .ifElse ihCondition ihThen ihElse
  | fnLit _ _ ihParameter ihBody => exact .fnLit ihParameter ihBody
  | macroLit _ _ ihParameter ihBody => exact .macroLit ihParameter ihBody
  | call _ _ ihCallee ihArgument => exact .call ihCallee ihArgument
  | index _ _ ihContainer ihPosition => exact .index ihContainer ihPosition
  | piece role notParameter => exact .piece (more _ _ role) notParameter

theorem isMissing_eq_false (h : node.Proper roles category) : node.isMissing = false := by
  cases h <;> rfl

end Node.Proper

mutual

/-- A well-formed tree is proper, whatever pieces there are. -/
theorem Node.fits.proper (roles : Roles) {category : Category} :
    ∀ {node : Node}, node.fits category = true → node.Proper roles category
  | .program ss, h => by
    cases category <;> simp only [Node.fits, Bool.false_eq_true] at h
    exact .program (Node.fitsAll.proper roles h)
  | .block t ss, h => by
    cases category <;> simp only [Node.fits, Bool.false_eq_true] at h
    exact .block (Node.fitsAll.proper roles h)
  | .letStmt t name value, h => by
    cases category <;> simp only [Node.fits, Bool.false_eq_true] at h
    exact .letStmt (Node.fits.proper roles h)
  | .returnStmt t value, h => by
    cases category <;> simp only [Node.fits, Bool.false_eq_true] at h
    exact .returnStmt (Node.fits.proper roles h)
  | .exprStmt t value, h => by
    cases category <;> simp only [Node.fits, Bool.false_eq_true] at h
    exact .exprStmt (Node.fits.proper roles h)
  | .ident t name, h => by
    cases category <;> simp only [Node.fits, Bool.false_eq_true] at h
    · exact .ident
    · exact .parameter
  | .int t n, h => by
    cases category <;> simp only [Node.fits, Bool.false_eq_true] at h
    simp only [Bool.and_eq_true, Bool.not_eq_true'] at h
    exact .int h.2
  | .bool t b, h => by
    cases category <;> simp only [Node.fits, Bool.false_eq_true] at h
    exact .bool
  | .str t s, h => by
    cases category <;> simp only [Node.fits, Bool.false_eq_true] at h
    exact .str
  | .array t elements, h => by
    cases category <;> simp only [Node.fits, Bool.false_eq_true] at h
    exact .array (Node.fitsAll.proper roles h)
  | .hash t pairs, h => by
    cases category <;> simp only [Node.fits, Bool.false_eq_true] at h
    have both := Node.fitsPairs.proper roles h
    exact .hash (fun p mem => (both p mem).1) fun p mem => (both p mem).2
  | .unary t op operand, h => by
    cases category <;> simp only [Node.fits, Bool.false_eq_true] at h
    simp only [Bool.and_eq_true] at h
    exact .unary h.1 (Node.fits.proper roles h.2)
  | .binary t left op right, h => by
    cases category <;> simp only [Node.fits, Bool.false_eq_true] at h
    simp only [Bool.and_eq_true] at h
    exact .binary h.1.1 (Node.fits.proper roles h.1.2) (Node.fits.proper roles h.2)
  | .ifElse t condition consequence alternative, h => by
    cases category <;> simp only [Node.fits, Bool.false_eq_true] at h
    simp only [Bool.and_eq_true, Bool.or_eq_true] at h
    obtain ⟨⟨hcondition, hthen⟩, helse⟩ := h
    have condition := Node.fits.proper roles hcondition
    have consequence := Node.fits.proper roles hthen
    rcases helse with none | some
    · cases alternative with
      | missing => exact .ifThen condition consequence
      | _ => cases none
    · exact .ifElse condition consequence (Node.fits.proper roles some)
  | .fnLit t parameters body, h => by
    cases category <;> simp only [Node.fits, Bool.false_eq_true] at h
    simp only [Bool.and_eq_true] at h
    exact .fnLit (Node.fitsAll.proper roles h.1) (Node.fits.proper roles h.2)
  | .macroLit t parameters body, h => by
    cases category <;> simp only [Node.fits, Bool.false_eq_true] at h
    simp only [Bool.and_eq_true] at h
    exact .macroLit (Node.fitsAll.proper roles h.1) (Node.fits.proper roles h.2)
  | .call t callee arguments, h => by
    cases category <;> simp only [Node.fits, Bool.false_eq_true] at h
    simp only [Bool.and_eq_true] at h
    exact .call (Node.fits.proper roles h.1) (Node.fitsAll.proper roles h.2)
  | .index t container position, h => by
    cases category <;> simp only [Node.fits, Bool.false_eq_true] at h
    simp only [Bool.and_eq_true] at h
    exact .index (Node.fits.proper roles h.1) (Node.fits.proper roles h.2)
  | .missing, h | .piece id, h => by
    cases category <;> simp only [Node.fits, Bool.false_eq_true] at h

theorem Node.fitsAll.proper (roles : Roles) {category : Category} :
    ∀ {nodes : List Node}, Node.fitsAll category nodes = true →
      ∀ node ∈ nodes, node.Proper roles category
  | [], _ => fun _ none => nomatch none
  | node :: nodes, h => by
    simp only [Node.fitsAll, Bool.and_eq_true] at h
    exact List.forall_mem_cons.2 ⟨Node.fits.proper roles h.1, Node.fitsAll.proper roles h.2⟩

theorem Node.fitsPairs.proper (roles : Roles) :
    ∀ {pairs : List (Node × Node)}, Node.fitsPairs pairs = true →
      ∀ p ∈ pairs, p.1.Proper roles .expression ∧ p.2.Proper roles .expression
  | [], _ => fun _ none => nomatch none
  | (key, value) :: pairs, h => by
    simp only [Node.fitsPairs, Bool.and_eq_true] at h
    exact List.forall_mem_cons.2
      ⟨⟨Node.fits.proper roles h.1.1, Node.fits.proper roles h.1.2⟩,
        Node.fitsPairs.proper roles h.2⟩

end

/-! ## Transformations -/

section

variable {m : Type → Type} [Monad m]

/-- `K α roles c c' post` is to say of two computations, which start where the pieces have the
roles, that they end alike: with results for which `post` holds and with roles that go on from the
first ones. It is such a relation if computations without effect have it and sequences keep it. -/
structure Tracks (K : (α : Type) → Roles → m α → m α → (Roles → α → Prop) → Prop) : Prop where
  pure : ∀ {α : Type} {roles : Roles} {post : Roles → α → Prop} {a : α}, post roles a →
    K α roles (pure a) (pure a) post
  bind : ∀ {α β : Type} {roles : Roles} {c c' : m α} {next next' : α → m β}
    {mid : Roles → α → Prop} {post : Roles → β → Prop}, K α roles c c' mid →
    (∀ roles' a, roles.Le roles' → mid roles' a → K β roles' (next a) (next' a) post) →
    K β roles (c >>= next) (c' >>= next') post

namespace Tracks

variable {K : (α : Type) → Roles → m α → m α → (Roles → α → Prop) → Prop} {f f' : Node → m Node}
  {β : Type} {roles : Roles} {next next' : Node → m β} {post : Roles → β → Prop}

theorem giveM_eq {category : Category} {node : Node}
    (h : node.Proper roles category) : Node.giveM f node = f node := by
  cases h <;> rfl

/-- A place below a node: what stands there is transformed, given over, and goes on in the place. -/
theorem place (h : Tracks K)
    (hf : ∀ roles category node, node.Proper roles category →
      K Node roles (f node) (f' node) fun roles' result => result.Proper roles' category)
    {category : Category} {below below' : m Node}
    (proper : K Node roles below below' fun roles' result => result.Proper roles' category)
    (then_ : ∀ roles' result, roles.Le roles' → result.Proper roles' category →
      K β roles' (next result) (next' result) post) :
    K β roles (do next (← Node.giveM f (← below))) (do next' (← Node.giveM f' (← below'))) post := by
  refine h.bind proper fun roles₁ result more₁ proper₁ => ?_
  rw [giveM_eq proper₁, giveM_eq proper₁]
  exact h.bind (hf roles₁ category result proper₁) fun roles₂ result more₂ proper₂ =>
    then_ roles₂ result (more₁.trans more₂) proper₂

/-- Where nothing stands, nothing is given over. -/
theorem noPlace (h : Tracks K)
    (then_ : ∀ roles', roles.Le roles' → K β roles' (next .missing) (next' .missing) post) :
    K β roles (do next (← Node.giveM f (← Node.missing.belowM f)))
      (do next' (← Node.giveM f' (← Node.missing.belowM f'))) post := by
  have nothing {roles' : Roles} :
      K Node roles' (Pure.pure .missing) (Pure.pure .missing) fun _ node => node = .missing :=
    h.pure rfl
  refine h.bind nothing fun roles₁ node more₁ same => ?_
  subst same
  refine h.bind nothing fun roles₂ node more₂ same => ?_
  subst same
  exact then_ roles₂ (more₁.trans more₂)

mutual

theorem belowM (h : Tracks K)
    (hf : ∀ roles category node, node.Proper roles category →
      K Node roles (f node) (f' node) fun roles' result => result.Proper roles' category) :
    ∀ (node : Node) {roles : Roles} {category : Category}, node.Proper roles category →
      K Node roles (node.belowM f) (node.belowM f') fun roles' result =>
        result.Proper roles' category
  | .missing, _, _, proper | .ident _ _, _, _, proper | .int _ _, _, _, proper
  | .bool _ _, _, _, proper | .str _ _, _, _, proper | .piece _, _, _, proper => h.pure proper
  | .program ss, _, _, .program each =>
    h.bind (belowAllM h hf ss each) fun _ _ _ each => h.pure (.program each)
  | .block _ ss, _, _, .block each =>
    h.bind (belowAllM h hf ss each) fun _ _ _ each => h.pure (.block each)
  | .letStmt _ _ v, _, _, .letStmt value =>
    h.place hf (belowM h hf v value) fun _ _ _ value => h.pure (.letStmt value)
  | .returnStmt _ v, _, _, .returnStmt value =>
    h.place hf (belowM h hf v value) fun _ _ _ value => h.pure (.returnStmt value)
  | .exprStmt _ v, _, _, .exprStmt value =>
    h.place hf (belowM h hf v value) fun _ _ _ value => h.pure (.exprStmt value)
  | .array _ es, _, _, .array each =>
    h.bind (belowAllM h hf es each) fun _ _ _ each => h.pure (.array each)
  | .hash _ ps, _, _, .hash keys values =>
    h.bind (belowPairsM h hf ps fun p mem => ⟨keys p mem, values p mem⟩) fun _ _ _ each =>
      h.pure (.hash (fun p mem => (each p mem).1) fun p mem => (each p mem).2)
  | .unary _ _ e, _, _, .unary known operand =>
    h.place hf (belowM h hf e operand) fun _ _ _ operand => h.pure (.unary known operand)
  | .binary _ l _ r, _, _, .binary known left right =>
    h.place hf (belowM h hf l left) fun _ _ more₁ left =>
      h.place hf (belowM h hf r (right.mono more₁)) fun _ _ more₂ right =>
        h.pure (.binary known (left.mono more₂) right)
  | .ifElse _ c t _, _, _, .ifThen condition consequence =>
    h.place hf (belowM h hf c condition) fun _ _ more₁ condition =>
      h.place hf (belowM h hf t (consequence.mono more₁)) fun _ _ more₂ consequence =>
        h.noPlace fun _ more₃ =>
          h.pure (.ifThen (condition.mono (more₂.trans more₃)) (consequence.mono more₃))
  | .ifElse _ c t e, _, _, .ifElse condition consequence alternative =>
    h.place hf (belowM h hf c condition) fun _ _ more₁ condition =>
      h.place hf (belowM h hf t (consequence.mono more₁)) fun _ _ more₂ consequence =>
        h.place hf (belowM h hf e (alternative.mono (more₁.trans more₂)))
          fun _ _ more₃ alternative =>
            h.pure (.ifElse (condition.mono (more₂.trans more₃)) (consequence.mono more₃)
              alternative)
  | .fnLit _ ps b, _, _, .fnLit parameters body =>
    h.bind (belowAllM h hf ps parameters) fun _ _ more₁ parameters =>
      h.place hf (belowM h hf b (body.mono more₁)) fun _ _ more₂ body =>
        h.pure (.fnLit (fun p mem => (parameters p mem).mono more₂) body)
  | .macroLit _ ps b, _, _, .macroLit parameters body =>
    h.bind (belowAllM h hf ps parameters) fun _ _ more₁ parameters =>
      h.place hf (belowM h hf b (body.mono more₁)) fun _ _ more₂ body =>
        h.pure (.macroLit (fun p mem => (parameters p mem).mono more₂) body)
  | .call _ c as, _, _, .call callee arguments =>
    h.place hf (belowM h hf c callee) fun _ _ more₁ callee =>
      h.bind (belowAllM h hf as fun a mem => (arguments a mem).mono more₁)
        fun _ _ more₂ arguments => h.pure (.call (callee.mono more₂) arguments)
  | .index _ l r, _, _, .index container position =>
    h.place hf (belowM h hf l container) fun _ _ more₁ container =>
      h.place hf (belowM h hf r (position.mono more₁)) fun _ _ more₂ position =>
        h.pure (.index (container.mono more₂) position)

theorem belowAllM (h : Tracks K)
    (hf : ∀ roles category node, node.Proper roles category →
      K Node roles (f node) (f' node) fun roles' result => result.Proper roles' category) :
    ∀ (nodes : List Node) {roles : Roles} {category : Category},
      (∀ node ∈ nodes, node.Proper roles category) →
      K (List Node) roles (Node.belowAllM f nodes) (Node.belowAllM f' nodes) fun roles' results =>
        ∀ result ∈ results, result.Proper roles' category
  | [], _, _, _ => h.pure fun _ none => nomatch none
  | node :: nodes, _, _, each =>
    h.place hf (belowM h hf node (each node (.head _))) fun _ _ more₁ first =>
      h.bind (belowAllM h hf nodes fun n mem => (each n (.tail _ mem)).mono more₁)
        fun _ _ more₂ others => h.pure (List.forall_mem_cons.2 ⟨first.mono more₂, others⟩)

theorem belowPairsM (h : Tracks K)
    (hf : ∀ roles category node, node.Proper roles category →
      K Node roles (f node) (f' node) fun roles' result => result.Proper roles' category) :
    ∀ (pairs : List (Node × Node)) {roles : Roles},
      (∀ p ∈ pairs, p.1.Proper roles .expression ∧ p.2.Proper roles .expression) →
      K (List (Node × Node)) roles (Node.belowPairsM f pairs) (Node.belowPairsM f' pairs)
        fun roles' results =>
          ∀ p ∈ results, p.1.Proper roles' .expression ∧ p.2.Proper roles' .expression
  | [], _, _ => h.pure fun _ none => nomatch none
  | (k, v) :: pairs, _, each =>
    h.place hf (belowM h hf k (each _ (.head _)).1) fun _ _ more₁ key =>
      h.place hf (belowM h hf v ((each _ (.head _)).2.mono more₁)) fun _ _ more₂ value =>
        h.bind
          (belowPairsM h hf pairs fun p mem =>
            (each p (.tail _ mem)).imp (.mono · (more₁.trans more₂)) (.mono · (more₁.trans more₂)))
          fun _ _ more₃ others =>
            h.pure (List.forall_mem_cons.2 ⟨⟨key.mono (more₂.trans more₃), value.mono more₃⟩, others⟩)

end

/-- A transformation that keeps the categories of proper nodes makes a proper tree of one. -/
theorem transformM (h : Tracks K)
    (hf : ∀ roles category node, node.Proper roles category →
      K Node roles (f node) (f' node) fun roles' result => result.Proper roles' category)
    {node : Node} {roles : Roles} {category : Category} (proper : node.Proper roles category) :
    K Node roles (node.transformM f) (node.transformM f') fun roles' result =>
      result.Proper roles' category := by
  refine h.bind (h.belowM hf node proper) fun roles' result _ proper' => ?_
  rw [giveM_eq proper', giveM_eq proper']
  exact hf roles' category result proper'

end Tracks

end

end MonkeyLang
