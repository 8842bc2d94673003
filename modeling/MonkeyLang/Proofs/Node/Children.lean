import MonkeyLang.Node.Transform

/-!
# The nodes right below a node

A node is its form and the list of the nodes right below it, in the order of the text. So a
transformation of a tree is one of the children from left to right and then one of the node with the
new children, whatever the form is.

* `Node.children` and `Node.withChildren` take a node apart and put it together.
* `Node.transformM_eq` is the equation of a transformation.
* `Node.childInduction` is induction on trees by their children.
-/

namespace MonkeyLang

namespace Node

/-- The nodes right below a node, in the order of the text. -/
def children : Node → List Node
  | missing | ident _ _ | int _ _ | bool _ _ | str _ _ | piece _ => []
  | program ss | block _ ss | array _ ss => ss
  | hash _ ps => ps.flatMap fun p => [p.1, p.2]
  | letStmt _ _ v | returnStmt _ v | exprStmt _ v | unary _ _ v => [v]
  | binary _ l _ r | index _ l r => [l, r]
  | ifElse _ c t e => [c, t, e]
  | fnLit _ ps b | macroLit _ ps b => ps ++ [b]
  | call _ c as => c :: as

/-- The nodes of a list as pairs. -/
def pairUp : List Node → List (Node × Node)
  | key :: value :: others => (key, value) :: pairUp others
  | _ => []

/-- The node with other nodes right below it. -/
def withChildren : Node → List Node → Node
  | program _, ss => program ss
  | block t _, ss => block t ss
  | array t _, ss => array t ss
  | hash t _, ns => hash t (pairUp ns)
  | letStmt t name _, [v] => letStmt t name v
  | returnStmt t _, [v] => returnStmt t v
  | exprStmt t _, [v] => exprStmt t v
  | unary t op _, [v] => unary t op v
  | binary t _ op _, [l, r] => binary t l op r
  | index t _ _, [l, r] => index t l r
  | ifElse t _ _ _, [c, th, e] => ifElse t c th e
  | fnLit t _ _, ns => fnLit t ns.dropLast (ns.getLastD missing)
  | macroLit t _ _, ns => macroLit t ns.dropLast (ns.getLastD missing)
  | call t _ _, c :: as => call t c as
  | node, _ => node

/-- Is the node a place of a piece? -/
def isPiece : Node → Bool
  | piece _ => true
  | _ => false

theorem eq_piece_of_isPiece {node : Node} (h : node.isPiece = true) : ∃ id, node = piece id := by
  cases node with
  | piece id => exact ⟨id, rfl⟩
  | _ => cases h

@[simp] theorem pairUp_flatMap (ps : List (Node × Node)) :
    pairUp (ps.flatMap fun p => [p.1, p.2]) = ps := by
  induction ps with
  | nil => rfl
  | cons p ps ih => simpa [pairUp] using ih

@[simp] theorem withChildren_children (node : Node) : node.withChildren node.children = node := by
  cases node <;> simp [children, withChildren]

theorem withChildren_fnLit (t : Option Token) (ps ps' : List Node) (b b' : Node) :
    (fnLit t ps b).withChildren (ps' ++ [b']) = fnLit t ps' b' := by
  change fnLit t (ps' ++ [b']).dropLast ((ps' ++ [b']).getLastD missing) = _
  rw [List.dropLast_concat, List.getLastD_concat]

theorem withChildren_macroLit (t : Option Token) (ps ps' : List Node) (b b' : Node) :
    (macroLit t ps b).withChildren (ps' ++ [b']) = macroLit t ps' b' := by
  change macroLit t (ps' ++ [b']).dropLast ((ps' ++ [b']).getLastD missing) = _
  rw [List.dropLast_concat, List.getLastD_concat]

theorem isPiece_withChildren (node : Node) (ns : List Node) :
    (node.withChildren ns).isPiece = node.isPiece := by
  unfold withChildren
  split <;> rfl

theorem isCompound_withChildren (node : Node) (ns : List Node) :
    (node.withChildren ns).isCompound = node.isCompound := by
  unfold withChildren
  split <;> rfl

theorem sizeOf_children {node child : Node} (h : child ∈ node.children) :
    sizeOf child < sizeOf node := by
  cases node with
  | missing | ident | int | bool | str | piece => cases h
  | program ss =>
      have smaller : sizeOf child < sizeOf ss := List.sizeOf_lt_of_mem h
      simp only [program.sizeOf_spec]
      omega
  | block t ss =>
      have smaller : sizeOf child < sizeOf ss := List.sizeOf_lt_of_mem h
      simp only [block.sizeOf_spec]
      omega
  | array t ss =>
      have smaller : sizeOf child < sizeOf ss := List.sizeOf_lt_of_mem h
      simp only [array.sizeOf_spec]
      omega
  | hash t ps =>
      obtain ⟨⟨key, value⟩, mem, part⟩ := List.mem_flatMap.1 h
      have smaller := List.sizeOf_lt_of_mem mem
      simp only [Prod.mk.sizeOf_spec] at smaller
      simp only [List.mem_cons, List.not_mem_nil, or_false] at part
      simp only [hash.sizeOf_spec]
      rcases part with rfl | rfl <;> omega
  | letStmt | returnStmt | exprStmt | unary =>
      cases List.mem_singleton.1 h
      simp +arith
  | binary | index =>
      simp only [children, List.mem_cons, List.not_mem_nil, or_false] at h
      rcases h with rfl | rfl <;> simp +arith
  | ifElse t c th e =>
      simp only [children, List.mem_cons, List.not_mem_nil, or_false] at h
      rcases h with rfl | rfl | rfl <;> simp +arith
  | fnLit t ps b | macroLit t ps b =>
      rcases List.mem_append.1 h with inside | body
      · have smaller := List.sizeOf_lt_of_mem inside
        simp only [fnLit.sizeOf_spec, macroLit.sizeOf_spec]
        omega
      · cases List.mem_singleton.1 body
        simp +arith
  | call t c as =>
      rcases List.mem_cons.1 h with rfl | inside
      · simp +arith
      · have smaller := List.sizeOf_lt_of_mem inside
        simp only [call.sizeOf_spec]
        omega

/-- What holds of a node if it holds of its children holds of every node. -/
theorem childInduction {P : Node → Prop} (step : ∀ node, (∀ c ∈ node.children, P c) → P node)
    (node : Node) : P node :=
  step node fun c mem =>
    have := sizeOf_children mem
    childInduction step c
termination_by sizeOf node

/-! ## Transformations -/

section

variable {m : Type → Type} [Monad m] [LawfulMonad m] (f : Node → m Node)

theorem belowAllM_eq (nodes : List Node) : belowAllM f nodes = nodes.mapM (transformM f) := by
  induction nodes with
  | nil => rfl
  | cons node nodes ih => simp [belowAllM, transformM, ih]

theorem belowPairsM_eq (pairs : List (Node × Node)) :
    belowPairsM f pairs =
      pairUp <$> (pairs.flatMap fun p => [p.1, p.2]).mapM (transformM f) := by
  induction pairs with
  | nil => simp [belowPairsM, pairUp]
  | cons p pairs ih => simp [belowPairsM, transformM, ih, pairUp]

/-- Below a node the children are transformed, from left to right. -/
theorem belowM_eq (node : Node) :
    node.belowM f = node.withChildren <$> node.children.mapM (transformM f) := by
  cases node with
  | program | block | array =>
      rw [belowM, belowAllM_eq, bind_pure_comp]
      rfl
  | hash =>
      rw [belowM, belowPairsM_eq, bind_pure_comp, Functor.map_map]
      rfl
  | _ => simp [belowM, children, withChildren, transformM, belowAllM_eq]

/-- A transformation transforms the children and then the node with what has come of them. A hole
stays a hole. -/
theorem transformM_eq (node : Node) :
    node.transformM f =
      node.children.mapM (transformM f) >>= fun ns => giveM f (node.withChildren ns) := by
  rw [transformM, belowM_eq]
  simp

end

end Node

end MonkeyLang
