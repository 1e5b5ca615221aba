import OnePage.Node

/-!
# Parsers of forests

A parser reads a forest from the front of a list of tokens and returns it with the tokens left. When
it fails it returns the nodes it had made up to then, so that what a parse did can be told either
way. Parsers are put together in sequence and under a nonterminal.

Specification: section 4.2.
-/

namespace OnePage

/-- Why tokens cannot be read as a program. -/
inductive ParseError where
  /-- This token cannot stand here. -/
  | unexpectedToken (expected found : String) (position : Position)
  /-- The tokens end too early. -/
  | unexpectedEnd (expected : String)
  deriving DecidableEq

namespace ParseError

/-- The text that reports an error. -/
def message : ParseError → String
  | unexpectedToken expected found position =>
    "expected " ++ expected ++ " at " ++ position.text ++ ", found '" ++ found ++ "'"
  | unexpectedEnd expected => "unexpected end of input, expected " ++ expected

/-- The place an error cites. -/
def position? : ParseError → Option Position
  | unexpectedToken _ _ position => some position
  | unexpectedEnd _ => none

end ParseError

/-- An error with the labels of the nodes made before it, in the order in which they were made. -/
structure ParseFailure where
  error : ParseError
  made : List Node
  deriving DecidableEq

/-- A reader of forests from the front of a list of tokens. -/
abbrev Parser := List Token → Except ParseFailure (Forest Node × List Token)

namespace Parser

/-- The kind of the next token. -/
def nextKind (tokens : List Token) : Option Kind := tokens.head?.map Token.kind

/-- Fail at the next token, where something else was expected. -/
def unexpected (expected : String) : Parser
  | [] => .error { error := .unexpectedEnd expected, made := [] }
  | t :: _ => .error { error := .unexpectedToken expected t.lexeme t.position, made := [] }

/-- Read nothing. -/
def nothing : Parser := fun tokens ↦ .ok ([], tokens)

/-- Read one token of the given kind. -/
def token (kind : Kind) : Parser
  | [] => unexpected kind.describe []
  | t :: rest =>
    if t.kind = kind then .ok ([.leaf (.leaf t)], rest) else unexpected kind.describe (t :: rest)

/-- Read all tokens of the given kind that come next. -/
def tokensOf (kind : Kind) : Parser := fun tokens ↦
  .ok ((tokens.takeWhile (·.kind == kind)).map fun t ↦ .leaf (.leaf t),
    tokens.dropWhile (·.kind == kind))

/-- Read one forest after the other. -/
def seq : List Parser → Parser
  | [] => nothing
  | first :: others => fun tokens ↦
    match first tokens with
    | .error failure => .error failure
    | .ok (trees, rest) =>
      match seq others rest with
      | .error failure => .error { failure with made := Forest.labels trees ++ failure.made }
      | .ok (more, rest) => .ok (trees ++ more, rest)

/-- Read the children of a node. -/
def branch (production : Production) (children : Parser) : Parser := fun tokens ↦
  match children tokens with
  | .error failure => .error { failure with made := .branch production :: failure.made }
  | .ok (trees, rest) => .ok ([.node (.branch production) trees], rest)

/-- Read a node with one token below it. -/
def terminal (production : Production) (kind : Kind) : Parser := branch production (token kind)

end Parser

end OnePage
