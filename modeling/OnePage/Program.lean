import OnePage.Analysis.Resolved
import OnePage.Text.Numerals

/-!
# Programs

The statements and expressions that a resolved tree stands for. Every tree has such a reading; where
a tree is not a program, the reading holds the error found there, so that code for what comes before
can still be drafted. A sum is read as the list of its terms, however it is nested.

Specification: section 4.4.
-/

namespace OnePage

/-- Why there is no image for a tree. -/
inductive CodeError where
  /-- An identifier stands for no symbol, or a symbol for no declared variable. -/
  | unresolvedSymbol (name : String)
  /-- A node does not have the shape of a program. -/
  | malformed (node : String)
  /-- The program does not fit on the page. -/
  | outOfMemory
  deriving DecidableEq

/-- The text that reports an error. -/
def CodeError.message : CodeError → String
  | unresolvedSymbol name => "internal error: reference to unresolved symbol '" ++ name ++ "'"
  | malformed node => "internal error: malformed " ++ node ++ " node in AST"
  | outOfMemory => "program does not fit in 256 bytes"

/-- An expression. -/
inductive Expr where
  | digit (value : UInt8)
  | flag (value : Bool)
  | text (value : String)
  /-- A variable, with the name by which the expression calls it. -/
  | var (symbol : SymbolId) (name : String)
  /-- The sum of one or more terms. -/
  | sum (first : Expr) (rest : List Expr)
  /-- A test whether two values are equal, or whether they differ. -/
  | compare (equal : Bool) (left right : Expr)
  /-- A comparison that does not have two operands. -/
  | oddCompare (operator : String)
  /-- Not an expression. -/
  | invalid (error : CodeError)

/-- A statement. -/
inductive Stmt where
  | block (body : List Stmt)
  | declare (symbol : SymbolId)
  | assign (symbol : SymbolId) (value : Expr)
  | print (value : Expr)
  | ifThen (condition : Expr) (body : Stmt)
  | whileDo (condition : Expr) (body : Stmt)
  /-- Not a statement. -/
  | invalid (error : CodeError)

namespace Expr

/-- The terms of a sum; any other expression is the one term of itself. -/
def terms : Expr → List Expr
  | sum first rest => first :: rest
  | e => [e]

/-- The expression of a token without regard to what is below it, if there is one. -/
def ofToken (token : Token) (symbol : Option SymbolId) : Expr :=
  match token.kind with
  | .digit =>
    match Decimal.ofText? 256 token.lexeme with
    | some value => digit (UInt8.ofNat value)
    | none => invalid (.malformed token.lexeme)
  | .boolVal => flag (token.lexeme == "true")
  | .identifier =>
    match symbol with
    | some symbol => var symbol token.lexeme
    | none => invalid (.unresolvedSymbol token.lexeme)
  | _ => invalid (.malformed token.lexeme)

/-- The comparison of some operands. -/
def compareAll (operator : String) : List Expr → Expr
  | [] => invalid (.malformed operator)
  | [left, right] => compare (operator == "==") left right
  | _ => oddCompare operator

/-- The sum of some terms. -/
def sumAll (operator : String) : List Expr → Expr
  | [] => invalid (.malformed operator)
  | first :: rest => sum first rest

mutual

/-- The expression that a tree stands for. -/
def ofTree : Tree Resolved → Expr
  | .node r children =>
    match r.node with
    | .literal value _ => text value
    | .branch production => invalid (.malformed production.text)
    | .leaf token =>
      match token.kind with
      | .intOp => sumAll token.lexeme ((ofTrees children).flatMap terms)
      | .boolOp => compareAll token.lexeme (ofTrees children)
      | _ => ofToken token r.symbol

/-- The expressions that trees stand for. -/
def ofTrees : Forest Resolved → List Expr
  | [] => []
  | t :: ts => ofTree t :: ofTrees ts

end

end Expr

namespace Stmt

/-- The declaration with the given children. -/
def ofDeclaration (node : Node) : Forest Resolved → Stmt
  | [_, name] =>
    match name.label.symbol with
    | some symbol => declare symbol
    | none => invalid (.unresolvedSymbol name.label.node.text)
  | _ => invalid (.malformed node.text)

/-- The assignment with the given children. -/
def ofAssignment (node : Node) : Forest Resolved → Stmt
  | [target, value] =>
    match target.label.symbol with
    | some symbol => assign symbol (.ofTree value)
    | none => invalid (.unresolvedSymbol target.label.node.text)
  | _ => invalid (.malformed node.text)

/-- The print statement with the given children. -/
def ofPrint (node : Node) : Forest Resolved → Stmt
  | [value] => print (.ofTree value)
  | _ => invalid (.malformed node.text)

mutual

/-- The statement that a tree stands for. -/
def ofTree : Tree Resolved → Stmt
  | .node r children =>
    match r.node with
    | .branch .block => block (ofTrees children)
    | .branch .varDecl => ofDeclaration r.node children
    | .branch .assignmentStatement => ofAssignment r.node children
    | .branch .printStatement => ofPrint r.node children
    | .branch .ifStatement =>
      match children with
      | [condition, body] => ifThen (.ofTree condition) (ofTree body)
      | _ => invalid (.malformed r.node.text)
    | .branch .whileStatement =>
      match children with
      | [condition, body] => whileDo (.ofTree condition) (ofTree body)
      | _ => invalid (.malformed r.node.text)
    | node => invalid (.malformed node.text)

/-- The statements that trees stand for. -/
def ofTrees : Forest Resolved → List Stmt
  | [] => []
  | t :: ts => ofTree t :: ofTrees ts

end

end Stmt

end OnePage
