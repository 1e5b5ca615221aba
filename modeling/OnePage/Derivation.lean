import OnePage.Derivation.Parser
import OnePage.Event

/-!
# Derivations

The grammar as parsers, one for each nonterminal, and programs read with them.

    Program             := Block '$'
    Block               := '{' StatementList '}'
    StatementList       := Statement StatementList | nothing
    Statement           := PrintStatement | AssignmentStatement | VarDecl
                         | WhileStatement | IfStatement | Block
    PrintStatement      := 'print' '(' Expr ')'
    AssignmentStatement := Id '=' Expr
    VarDecl             := type Id
    WhileStatement      := 'while' BoolExpr Block
    IfStatement         := 'if' BoolExpr Block
    Expr                := IntExpr | StringExpr | BoolExpr | Id
    IntExpr             := digit ('+' Expr)?
    StringExpr          := '"' CharList '"'
    BoolExpr            := boolval | '(' Expr boolop Expr ')'
    Id                  := identifier

The next token decides between alternatives, so nothing is read twice. Empty lists leave no node.
A nonterminal that contains itself is read to a bounded depth; every few levels consume a token, so
a bound on the depth follows from the number of tokens.

Specification: section 4.2.
-/

namespace OnePage

namespace Derivation

open OnePage.Parser

/-- Read a name. -/
def name : Parser := terminal .name .identifier

/-- Read the characters between two quotes. -/
def charList : Parser := fun tokens ↦
  if nextKind tokens = some .char then branch .charList (tokensOf .char) tokens
  else nothing tokens

/-- Read a text in quotes. -/
def stringExpr : Parser := branch .stringExpr (seq [token .quote, charList, token .quote])

/-- Read a declaration. -/
def varDecl : Parser := branch .varDecl (seq [terminal .typeName .typeWord, name])

mutual

/-- Read an expression of at most the given depth. -/
def expr : Nat → Parser
  | 0 => unexpected "expression"
  | depth + 1 => branch .expr fun tokens ↦
    match nextKind tokens with
    | some .digit => intExpr depth tokens
    | some .quote => stringExpr tokens
    | some .parenOpen | some .boolVal => boolExpr depth tokens
    | some .identifier => name tokens
    | _ => unexpected "expression" tokens

/-- Read a digit, or a sum that starts with one. -/
def intExpr : Nat → Parser
  | 0 => unexpected "expression"
  | depth + 1 => branch .intExpr (seq [terminal .digit .digit, fun tokens ↦
      if nextKind tokens = some .intOp then seq [terminal .intOp .intOp, expr depth] tokens
      else nothing tokens])

/-- Read a truth value, or a comparison in parentheses. -/
def boolExpr : Nat → Parser
  | 0 => unexpected "expression"
  | depth + 1 => branch .boolExpr fun tokens ↦
    if nextKind tokens = some .boolVal then terminal .boolVal .boolVal tokens
    else
      seq [token .parenOpen, expr depth, terminal .boolOp .boolOp, expr depth, token .parenClose]
        tokens

end

/-- Read a print statement. -/
def printStatement (depth : Nat) : Parser :=
  branch .printStatement (seq [token .printWord, token .parenOpen, expr depth, token .parenClose])

/-- Read an assignment. -/
def assignmentStatement (depth : Nat) : Parser :=
  branch .assignmentStatement (seq [name, token .assign, expr depth])

mutual

/-- Read a block of at most the given depth. -/
def block : Nat → Parser
  | 0 => unexpected Kind.braceOpen.describe
  | depth + 1 => branch .block (seq [token .braceOpen, statementList depth, token .braceClose])

/-- Read statements up to the end of their block. -/
def statementList : Nat → Parser
  | 0 => unexpected "statement"
  | depth + 1 => fun tokens ↦
    match nextKind tokens with
    | none | some .braceClose => nothing tokens
    | some _ => branch .statementList (seq [statement depth, statementList depth]) tokens

/-- Read a statement. -/
def statement : Nat → Parser
  | 0 => unexpected "statement"
  | depth + 1 => branch .statement fun tokens ↦
    match nextKind tokens with
    | some .printWord => printStatement depth tokens
    | some .identifier => assignmentStatement depth tokens
    | some .typeWord => varDecl tokens
    | some .whileWord =>
      branch .whileStatement (seq [token .whileWord, boolExpr depth, block depth]) tokens
    | some .ifWord =>
      branch .ifStatement (seq [token .ifWord, boolExpr depth, block depth]) tokens
    | some .braceOpen => block depth tokens
    | _ => unexpected "statement" tokens

end

/-- Read a program of at most the given depth. -/
def programTo (depth : Nat) : Parser := branch .program (seq [block depth, token .eof])

/-- A depth that no list of so many tokens exceeds. -/
def depthFor (tokens : List Token) : Nat := 4 * tokens.length + 4

/-- Read a program. -/
def program : Parser := fun tokens ↦ programTo (depthFor tokens) tokens

end Derivation

/-- Programs being read from one list of tokens. -/
structure Session where
  /-- The tokens not read yet. -/
  rest : List Token
  /-- The programs read. -/
  programs : Forest Node := []
  /-- The failure that ended reading. -/
  failure : Option ParseFailure := none

namespace Session

/-- Read one more program. After a failure nothing is read any more. -/
def program (s : Session) : Session :=
  match s.failure with
  | some _ => s
  | none =>
    match Derivation.program s.rest with
    | .ok (trees, rest) => { s with rest, programs := s.programs ++ trees }
    | .error failure => { s with failure := some failure }

/-- Read the given number of programs. -/
def programsOf : Nat → Session → Session
  | 0, s => s
  | n + 1, s => programsOf n s.program

/-- The event of a node made. -/
def nodeEvent : Node → Event
  | .leaf t =>
    { phase := .parse, severity := .found, profile := .verbose, position := some t.position,
      text := "expected " ++ t.kind.describe ++ ", found '" ++ t.lexeme ++ "'" }
  | node =>
    { phase := .parse, severity := .chatter, profile := .everything,
      text := "adding branch '" ++ node.text ++ "'" }

/-- The event of an error. -/
def errorEvent (e : ParseError) : Event :=
  { phase := .parse, severity := .error, text := e.message, position := e.position? }

/-- The event of an end without error. -/
def completed : Event :=
  { phase := .parse, severity := .message, text := "parse completed successfully" }

/-- The programs read, with all that was said: every node made, in order, and how it ended. -/
def report (s : Session) : Report ParseError (Forest Node) :=
  let made := (Forest.labels s.programs).map nodeEvent
  match s.failure with
  | none => { result := .ok s.programs, events := made ++ [completed] }
  | some failure =>
    { result := .error failure.error
      events := made ++ failure.made.map nodeEvent ++ [errorEvent failure.error] }

end Session

/-- Read tokens as the given number of programs. -/
def parsePrograms (count : Nat) (tokens : List Token) : Report ParseError (Forest Node) :=
  (Session.programsOf count { rest := tokens }).report

/-- Read tokens as a program. -/
def parse (tokens : List Token) : Report ParseError (Forest Node) := parsePrograms 1 tokens

end OnePage
