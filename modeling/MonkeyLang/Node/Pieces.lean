import MonkeyLang.Node.Render
import MonkeyLang.Node.Transform

/-!
# Pieces of program

Pieces of program that are kept apart from the trees in which they stand, each under a number of
its own. A piece may refer to other pieces. When a piece changes, it changes in all its places.

* `Pieces.add` keeps a new piece, `Pieces.set` changes one.
* `Pieces.whole?` puts the pieces into a tree. A piece that stands inside itself has no end.
-/

namespace MonkeyLang

/-- The pieces that are kept, by number. -/
structure Pieces where
  contents : Array Node
deriving Repr

namespace Pieces

/-- No pieces. -/
def empty : Pieces := ⟨#[]⟩

/-- The number that the next piece gets. -/
def nextId (p : Pieces) : PieceId := p.contents.size

/-- The piece of a number; a number that is none has nothing. -/
def get (p : Pieces) (id : PieceId) : Node := p.contents.getD id .missing

/-- Keep a new piece. -/
def add (p : Pieces) (node : Node) : Pieces := ⟨p.contents.push node⟩

/-- Change a piece. -/
def set (p : Pieces) (id : PieceId) (node : Node) : Pieces := ⟨p.contents.setIfInBounds id node⟩

theorem get_add (p : Pieces) (node : Node) (id : PieceId) :
    (p.add node).get id = if id = p.nextId then node else p.get id := by
  simp only [get, add, nextId, Array.getD_eq_getD_getElem?, Array.getElem?_push]
  split <;> simp_all

theorem get_set (p : Pieces) (id other : PieceId) (node : Node) :
    (p.set id node).get other =
      if id = other ∧ id < p.nextId then node else p.get other := by
  simp only [get, set, nextId, Array.getD_eq_getD_getElem?, Array.getElem?_setIfInBounds]
  by_cases same : id = other
  · subst same
    by_cases inside : id < p.contents.size <;> simp [inside]
  · simp [same]

theorem nextId_set (p : Pieces) (id : PieceId) (node : Node) :
    (p.set id node).nextId = p.nextId := by
  simp [nextId, set]

/-- The whole of a node below which all is whole: a place of a piece becomes that piece. It must
not hold more than `depth` pieces inside each other. -/
def fillPlace? (p : Pieces) : Nat → Node → Option Node
  | 0, .piece _ => none
  | depth + 1, .piece id => (p.get id).belowM (p.fillPlace? depth)
  | _, node => some node

/-- A tree with the pieces in their places. There is none if a piece stands inside itself: only
then do more pieces stand inside each other than there are. -/
def whole? (p : Pieces) (node : Node) : Option Node := node.transformM (p.fillPlace? p.nextId)

/-- A tree to be shown: with the pieces in their places, if it has an end. -/
def shown (p : Pieces) (node : Node) : Node := (p.whole? node).getD node

/-- The text of a tree with the pieces in their places. -/
def text? (p : Pieces) (node : Node) : Option Text := do return (← p.whole? node).render

end Pieces

end MonkeyLang
