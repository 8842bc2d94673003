import MonkeyLang.Node

/-!
# The canonical text of a tree

`Node.render` writes a tree as source text: infix and index expressions in full parentheses,
statements without anything between them, blocks without their braces. A hole inside a node is
written `None`; where a statement's own expression is missing nothing is written for it. A piece
that is kept apart from the tree is left out.
-/

namespace MonkeyLang

namespace Node

/-- Texts with a comma and a blank between them. -/
def commaSep (texts : List Text) : Text := Text.intercalate ", " texts

/-- The text of what a statement holds: nothing where that is missing. -/
def contentText (content : Node) (text : Text) : Text := if content.isMissing then "" else text

mutual

/-- The text of a node. -/
def render : Node → Text
  | missing => "None"
  | program ss => Text.join (renderAll ss)
  | block _ ss => Text.join (renderAll ss)
  | letStmt _ name value => "let " ++ name.text ++ " = " ++ contentText value value.render ++ ";"
  | returnStmt _ value => "return " ++ contentText value value.render ++ ";"
  | exprStmt _ value => contentText value value.render
  | ident _ name => name
  | int _ value => toString value
  | bool _ value => if value then "true" else "false"
  | str _ value => value
  | array _ elements => "[" ++ commaSep (renderAll elements) ++ "]"
  | hash _ pairs => "\x7b" ++ commaSep (renderPairs pairs) ++ "\x7d"
  | unary _ op operand => "(" ++ op ++ operand.render ++ ")"
  | binary _ left op right => "(" ++ left.render ++ " " ++ op ++ " " ++ right.render ++ ")"
  | ifElse _ condition consequence alternative =>
    "if" ++ condition.render ++ " " ++ consequence.render ++
      contentText alternative ("else " ++ alternative.render)
  | fnLit _ parameters body => "fn(" ++ commaSep (renderAll parameters) ++ ") " ++ body.render
  | macroLit _ parameters body =>
    "macro(" ++ commaSep (renderAll parameters) ++ ") " ++ body.render
  | call _ callee arguments => callee.render ++ "(" ++ commaSep (renderAll arguments) ++ ")"
  | index _ container position => "(" ++ container.render ++ "[" ++ position.render ++ "])"
  | piece _ => "..."

/-- The texts of some nodes. -/
def renderAll : List Node → List Text
  | [] => []
  | node :: nodes => node.render :: renderAll nodes

/-- The texts of the pairs of a hash. -/
def renderPairs : List (Node × Node) → List Text
  | [] => []
  | (key, value) :: pairs => (key.render ++ ":" ++ value.render) :: renderPairs pairs

end

/-- The name that a parameter binds: the parser makes identifiers of parameters, and this is the text of
the identifier. -/
def boundName (parameter : Node) : Text := parameter.render

end Node

end MonkeyLang
