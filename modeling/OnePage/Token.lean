/-!
# Tokens

A token is a piece of source text with its kind and the position of its first character. Lines and
columns are counted from one, a column for each character.

Specification: sections 3 (tokens) and 4.1.
-/

namespace OnePage

/-- A place in the source text. -/
structure Position where
  line : Nat
  column : Nat
  deriving DecidableEq

namespace Position

/-- The place of the first character. -/
def start : Position := ⟨1, 1⟩

/-- The place cited where there is none. -/
def nowhere : Position := ⟨0, 0⟩

/-- The place after a character that stands at `p`. -/
def advance (p : Position) (c : Char) : Position :=
  if c = '\n' then ⟨p.line + 1, 1⟩ else ⟨p.line, p.column + 1⟩

/-- The text of a place. -/
def text (p : Position) : String := toString p.line ++ ":" ++ toString p.column

end Position

/-- The kinds of token. -/
inductive Kind where
  | identifier
  /-- One of `int`, `string` and `boolean`. -/
  | typeWord
  | ifWord
  | whileWord
  | printWord
  /-- A letter or space inside quotes. -/
  | char
  | digit
  | parenOpen
  | parenClose
  | braceOpen
  | braceClose
  /-- One of `==` and `!=`. -/
  | boolOp
  | assign
  /-- One of `true` and `false`. -/
  | boolVal
  /-- The sign `+`. -/
  | intOp
  | quote
  /-- The sentinel `$` that ends a program. -/
  | eof
  deriving DecidableEq

namespace Kind

/-- The name of a kind. -/
def name : Kind → String
  | identifier => "Identifier"
  | typeWord => "Type"
  | ifWord => "If"
  | whileWord => "While"
  | printWord => "Print"
  | char => "Char"
  | digit => "Digit"
  | parenOpen => "ParenOpen"
  | parenClose => "ParenClose"
  | braceOpen => "BraceOpen"
  | braceClose => "BraceClose"
  | boolOp => "BoolOp"
  | assign => "Assign"
  | boolVal => "BoolVal"
  | intOp => "IntOp"
  | quote => "Quote"
  | eof => "Eof"

/-- The words by which messages refer to a kind. -/
def describe : Kind → String
  | identifier => "identifier"
  | typeWord => "type"
  | ifWord => "'if'"
  | whileWord => "'while'"
  | printWord => "'print'"
  | char => "character"
  | digit => "digit"
  | parenOpen => "'('"
  | parenClose => "')'"
  | braceOpen => "'\x7b'"
  | braceClose => "'\x7d'"
  | boolOp => "boolean operator"
  | assign => "'='"
  | boolVal => "boolean value"
  | intOp => "'+'"
  | quote => "'\"'"
  | eof => "'$'"

/-- Every kind. -/
def all : List Kind :=
  [identifier, typeWord, ifWord, whileWord, printWord, char, digit, parenOpen, parenClose,
   braceOpen, braceClose, boolOp, assign, boolVal, intOp, quote, eof]

/-- The kind with the given name. -/
def ofName? (text : String) : Option Kind := all.find? (·.name == text)

end Kind

/-- A token of the source text. -/
structure Token where
  lexeme : String
  kind : Kind
  position : Position
  deriving DecidableEq

/-- The text that shows a token. -/
def Token.text (t : Token) : String :=
  "'" ++ t.lexeme ++ "' [" ++ t.kind.name ++ "] at " ++ t.position.text

end OnePage
