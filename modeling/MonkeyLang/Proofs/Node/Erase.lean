import MonkeyLang.Node.Render

/-!
# Trees without their tokens

`Node.erase` takes the tokens out of a tree. Two trees are the same up to their tokens if they are
equal once these are taken out; then they have the same text (`Node.render_erase`).
-/

namespace MonkeyLang

namespace Node

mutual

/-- The tree without its tokens. -/
def erase : Node → Node
  | missing => missing
  | program ss => program (eraseAll ss)
  | block _ ss => block none (eraseAll ss)
  | letStmt _ name value => letStmt none ⟨none, name.text⟩ value.erase
  | returnStmt _ value => returnStmt none value.erase
  | exprStmt _ value => exprStmt none value.erase
  | ident _ name => ident none name
  | int _ value => int none value
  | bool _ value => bool none value
  | str _ value => str none value
  | array _ elements => array none (eraseAll elements)
  | hash _ pairs => hash none (erasePairs pairs)
  | unary _ op operand => unary none op operand.erase
  | binary _ left op right => binary none left.erase op right.erase
  | ifElse _ condition consequence alternative =>
    ifElse none condition.erase consequence.erase alternative.erase
  | fnLit _ parameters body => fnLit none (eraseAll parameters) body.erase
  | macroLit _ parameters body => macroLit none (eraseAll parameters) body.erase
  | call _ callee arguments => call none callee.erase (eraseAll arguments)
  | index _ container position => index none container.erase position.erase
  | piece id => piece id

/-- The trees without their tokens. -/
def eraseAll : List Node → List Node
  | [] => []
  | node :: nodes => node.erase :: eraseAll nodes

/-- The pairs without their tokens. -/
def erasePairs : List (Node × Node) → List (Node × Node)
  | [] => []
  | (key, value) :: pairs => (key.erase, value.erase) :: erasePairs pairs

end

theorem isMissing_erase (node : Node) : node.erase.isMissing = node.isMissing := by
  cases node <;> rfl

/-! ## The text does not depend on the tokens -/

theorem contentText_erase (content : Node) (text : Text) :
    contentText content.erase text = contentText content text := by
  unfold contentText
  rw [isMissing_erase]

mutual

theorem render_erase : ∀ node : Node, node.erase.render = node.render
  | missing | piece _ | ident _ _ | int _ _ | bool _ _ | str _ _ => rfl
  | program ss | block _ ss | array _ ss => by simp only [erase, render, renderAll_eraseAll ss]
  | letStmt _ _ v | returnStmt _ v | exprStmt _ v => by
    simp only [erase, render, render_erase v, contentText_erase]
  | hash _ ps => by simp only [erase, render, renderPairs_erasePairs ps]
  | unary _ _ v => by simp only [erase, render, render_erase v]
  | binary _ l _ r | index _ l r => by simp only [erase, render, render_erase l, render_erase r]
  | ifElse _ c t e => by
    simp only [erase, render, render_erase c, render_erase t, render_erase e, contentText_erase]
  | fnLit _ ps b | macroLit _ ps b => by
    simp only [erase, render, renderAll_eraseAll ps, render_erase b]
  | call _ c as => by simp only [erase, render, render_erase c, renderAll_eraseAll as]

theorem renderAll_eraseAll : ∀ nodes : List Node, renderAll (eraseAll nodes) = renderAll nodes
  | [] => rfl
  | node :: nodes => by
    simp only [eraseAll, renderAll, render_erase node, renderAll_eraseAll nodes]

theorem renderPairs_erasePairs :
    ∀ pairs : List (Node × Node), renderPairs (erasePairs pairs) = renderPairs pairs
  | [] => rfl
  | (key, value) :: pairs => by
    simp only [erasePairs, renderPairs, render_erase key, render_erase value,
      renderPairs_erasePairs pairs]

end

end Node

end MonkeyLang
