import MonkeyLang.Token

/-!
# Syntax trees

One type holds programs, statements and expressions, so that a transformation may put any node in
any place. A node made from source text carries the token it starts with; a node made by a
program or by hand may carry none. Where an erroneous text leaves a hole there is `missing`.

A tree may refer to pieces of program that are kept apart from it, by their numbers. So one and the
same piece can stand in several places.

* `Node.kindName` names the form of a node.
* `Node.tokenLiteral` is the literal of the token that a node starts with.
-/

namespace MonkeyLang

/-- The name that a let statement binds. It is no node of its own, so that transformations leave
it alone. -/
structure Name where
  tok : Option Token
  text : Text
deriving DecidableEq, Repr

/-- The number of a piece of program. -/
abbrev PieceId := Nat

/-- A syntax tree. -/
inductive Node where
  /-- The place of something that is not there. -/
  | missing
  | program (statements : List Node)
  | block (tok : Option Token) (statements : List Node)
  | letStmt (tok : Option Token) (name : Name) (value : Node)
  | returnStmt (tok : Option Token) (value : Node)
  | exprStmt (tok : Option Token) (value : Node)
  | ident (tok : Option Token) (name : Text)
  | int (tok : Option Token) (value : Int)
  | bool (tok : Option Token) (value : Bool)
  | str (tok : Option Token) (value : Text)
  | array (tok : Option Token) (elements : List Node)
  /-- The pairs in the order of the text, keys first. -/
  | hash (tok : Option Token) (pairs : List (Node × Node))
  | unary (tok : Option Token) (operator : Text) (operand : Node)
  | binary (tok : Option Token) (left : Node) (operator : Text) (right : Node)
  /-- Without an else branch the alternative is `missing`. -/
  | ifElse (tok : Option Token) (condition consequence alternative : Node)
  | fnLit (tok : Option Token) (parameters : List Node) (body : Node)
  | macroLit (tok : Option Token) (parameters : List Node) (body : Node)
  | call (tok : Option Token) (callee : Node) (arguments : List Node)
  | index (tok : Option Token) (container position : Node)
  /-- A place of a piece that is kept apart. -/
  | piece (id : PieceId)
deriving BEq, Repr

namespace Node

instance : Inhabited Node := ⟨missing⟩

/-- Is there nothing? -/
def isMissing : Node → Bool
  | missing => true
  | _ => false

/-- The token that a node carries. A program has none of its own. -/
def tok? : Node → Option Token
  | missing | program _ | piece _ => none
  | block t _ | letStmt t _ _ | returnStmt t _ | exprStmt t _ | ident t _ | int t _ | bool t _
  | str t _ | array t _ | hash t _ | unary t _ _ | binary t _ _ _ | ifElse t _ _ _ | fnLit t _ _
  | macroLit t _ _ | call t _ _ | index t _ _ => t

/-- The literal of the token that a node starts with, empty if it carries none. A program
starts with its first statement. -/
def tokenLiteral : Node → Text
  | program (s :: _) => (s.tok?.map Token.literal).getD ""
  | node => (node.tok?.map Token.literal).getD ""

/-- The name of a node's form. -/
def kindName : Node → String
  | missing => "NoneType"
  | program _ => "Program"
  | block _ _ => "BlockStatement"
  | letStmt _ _ _ => "LetStatement"
  | returnStmt _ _ => "ReturnStatement"
  | exprStmt _ _ => "ExpressionStatement"
  | ident _ _ => "Identifier"
  | int _ _ => "IntegerLiteral"
  | bool _ _ => "BooleanLiteral"
  | str _ _ => "StringLiteral"
  | array _ _ => "ArrayLiteral"
  | hash _ _ => "HashLiteral"
  | unary _ _ _ => "PrefixExpression"
  | binary _ _ _ _ => "InfixExpression"
  | ifElse _ _ _ _ => "IfExpression"
  | fnLit _ _ _ => "FunctionLiteral"
  | macroLit _ _ _ => "MacroLiteral"
  | call _ _ _ => "CallExpression"
  | index _ _ _ => "IndexExpression"
  | piece _ => "Piece"

/-- Is the node the identifier `name`? -/
def isIdent (name : Text) : Node → Bool
  | ident _ text => text = name
  | _ => false

/-- Can there be nodes below the node? -/
def isCompound : Node → Bool
  | missing | ident _ _ | int _ _ | bool _ _ | str _ _ | piece _ => false
  | _ => true

/-- The statements of a program. -/
def statements : Node → List Node
  | program ss => ss
  | _ => []

end Node

end MonkeyLang
