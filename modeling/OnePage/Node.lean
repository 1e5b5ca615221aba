import OnePage.Token
import OnePage.Tree.Outline

/-!
# Nodes of the language's trees

Both the concrete tree of a program and the tree left of it after analysis are labelled with nodes:
a nonterminal of the grammar, a token, or a text put together from the characters between quotes.

Specification: section 3, grammar nodes.
-/

namespace OnePage

/-- The nonterminals of the grammar. -/
inductive Production where
  | program
  | block
  | statementList
  | statement
  | printStatement
  | assignmentStatement
  | varDecl
  | whileStatement
  | ifStatement
  | expr
  | intExpr
  | stringExpr
  | boolExpr
  | name
  | charList
  | typeName
  | digit
  | boolOp
  | boolVal
  | intOp
  deriving DecidableEq

namespace Production

/-- The word for a nonterminal. -/
def text : Production → String
  | program => "Program"
  | block => "Block"
  | statementList => "StatementList"
  | statement => "Statement"
  | printStatement => "PrintStatement"
  | assignmentStatement => "AssignmentStatement"
  | varDecl => "VarDecl"
  | whileStatement => "WhileStatement"
  | ifStatement => "IfStatement"
  | expr => "Expr"
  | intExpr => "IntExpr"
  | stringExpr => "StringExpr"
  | boolExpr => "BoolExpr"
  | name => "Id"
  | charList => "CharList"
  | typeName => "Type"
  | digit => "Digit"
  | boolOp => "BoolOp"
  | boolVal => "BoolVal"
  | intOp => "IntOp"

/-- Every nonterminal. -/
def all : List Production :=
  [program, block, statementList, statement, printStatement, assignmentStatement, varDecl,
   whileStatement, ifStatement, expr, intExpr, stringExpr, boolExpr, name, charList, typeName,
   digit, boolOp, boolVal, intOp]

/-- The nonterminal with the given word. -/
def ofText? (word : String) : Option Production := all.find? (·.text == word)

end Production

/-- The label of a node. -/
inductive Node where
  /-- A nonterminal. -/
  | branch (production : Production)
  /-- A token. An operator may have its operands below it. -/
  | leaf (token : Token)
  /-- The text between two quotes, at the place of the first. -/
  | literal (text : String) (position : Position)
  deriving DecidableEq

namespace Node

/-- The text that shows a node. -/
def text : Node → String
  | branch p => p.text
  | leaf t => t.lexeme
  | literal s _ => "\"" ++ s ++ "\""

/-- The nonterminal of a node, if it is one. -/
def production? : Node → Option Production
  | branch p => some p
  | leaf _ | literal _ _ => none

/-- The token of a node, if it is one. -/
def token? : Node → Option Token
  | leaf t => some t
  | branch _ | literal _ _ => none

/-- The kind of the token of a node, if it is one. -/
def kind? (n : Node) : Option Kind := n.token?.map Token.kind

/-- The place of a node, if it has one. -/
def position? : Node → Option Position
  | branch _ => none
  | leaf t => some t.position
  | literal _ p => some p

end Node

/-- The first token right below the root of a tree. -/
def Tree.terminal? (t : Tree Node) : Option Token := t.children.findSome? (·.label.token?)

/-- The tokens among the leaves of some trees, in order. -/
def Forest.leafTokens (ts : Forest Node) : List Token := (Forest.labels ts).filterMap Node.token?

/-- The tokens of the main tree, in order. -/
def Forest.tokens (ts : Forest Node) : List Token := Forest.leafTokens (ts.take 1)

end OnePage
