import OnePage.Event
import OnePage.Text.Chars
import OnePage.Text.Numerals
import OnePage.Token.Reserved

/-!
# Reading source text as tokens

The text is read one character at a time, outside or inside quotes, up to the sentinel, the end of
the text or the first character that cannot stand there. A scan holds the tokens read and says how
it ended; its result and its events are views of it.

Specification: sections 4.1 and 7.
-/

namespace OnePage

/-- Why source text cannot be read as tokens. -/
inductive ScanError where
  /-- No token starts with this character. -/
  | unknownCharacter (character : Char) (position : Position)
  /-- This character cannot stand inside quotes. -/
  | invalidStringCharacter (character : Char) (position : Position)
  /-- A `!` is not followed by `=`. -/
  | unterminatedBang (position : Position)
  deriving DecidableEq

namespace ScanError

/-- A character by its name if it has no shape of its own, in quotes otherwise. -/
def nameOf (c : Char) : String :=
  if c = '\n' then "newline"
  else if c = '\r' then "carriage return"
  else if c = '\t' then "tab"
  else if Text.isControl c then "control character U+" ++ Hex.padded 4 c.toNat
  else "'" ++ c.toString ++ "'"

/-- The text that reports an error. -/
def message : ScanError → String
  | unknownCharacter c p => "unrecognized character '" ++ c.toString ++ "' at " ++ p.text
  | invalidStringCharacter c p =>
    nameOf c ++ " is not allowed inside a string (at " ++ p.text ++ ")"
  | unterminatedBang p => "expected '=' after '!' at " ++ p.text

/-- The place an error cites. -/
def position : ScanError → Position
  | unknownCharacter _ p | invalidStringCharacter _ p | unterminatedBang p => p

end ScanError

/-- How a scan ended. -/
inductive Ending where
  /-- At the sentinel; the text after it is not read. -/
  | sentinel (rest : List Char) (position : Position)
  /-- At the end of the text. -/
  | exhausted (position : Position)
  | fault (error : ScanError)
  deriving DecidableEq

/-- The tokens read from a text, and how reading ended. -/
structure Scan where
  tokens : List Token
  ending : Ending
  deriving DecidableEq

namespace Scan

/-- What a character asks for where it is met. -/
inductive Reading where
  /-- The character stands between tokens. -/
  | skip
  /-- A token starts here; what follows it is inside quotes or not. -/
  | token (lexeme : List Char) (kind : Kind) (quoted : Bool)
  | fault (error : ScanError)

/-- Whether a character is a lower-case letter. -/
def isLetter (c : Char) : Bool := 'a' ≤ c && c ≤ 'z'

/-- Read the character `c`, met at `p` inside quotes and followed by any text. -/
def readQuoted (p : Position) (c : Char) : Reading :=
  if isLetter c || c = ' ' then .token [c] .char true
  else if c = '"' then .token [c] .quote false
  else .fault (.invalidStringCharacter c p)

/-- Read the character `c`, met at `p` outside quotes and followed by `rest`. -/
def readPlain (p : Position) (c : Char) (rest : List Char) : Reading :=
  if c = '\n' || c = ' ' || c = '\t' || c = '\r' then .skip
  else if c = '"' then .token [c] .quote true
  else if isLetter c then
    match Reserved.word? (c :: rest) with
    | some (letters, kind) => .token letters kind false
    | none => .token [c] .identifier false
  else if '0' ≤ c && c ≤ '9' then .token [c] .digit false
  else if c = '+' then .token [c] .intOp false
  else if c = '(' then .token [c] .parenOpen false
  else if c = ')' then .token [c] .parenClose false
  else if c = '\x7b' then .token [c] .braceOpen false
  else if c = '\x7d' then .token [c] .braceClose false
  else if c = '=' then
    if rest.head? = some '=' then .token ['=', '='] .boolOp false else .token [c] .assign false
  else if c = '!' then
    if rest.head? = some '=' then .token ['!', '='] .boolOp false
    else .fault (.unterminatedBang p)
  else if c = '$' then .token [c] .eof false
  else .fault (.unknownCharacter c p)

/-- Read the character `c` inside or outside quotes. -/
def read (quoted : Bool) (p : Position) (c : Char) (rest : List Char) : Reading :=
  if quoted then readQuoted p c else readPlain p c rest

/-- A scan with one more token in front. -/
def cons (t : Token) (s : Scan) : Scan := { s with tokens := t :: s.tokens }

/-- Scan text that starts at `p`. The first `held` characters belong to a token already read. -/
def ofChars (quoted : Bool) (held : Nat) (p : Position) : List Char → Scan
  | [] => { tokens := [], ending := .exhausted p }
  | c :: rest =>
    match held with
    | n + 1 => ofChars quoted n (p.advance c) rest
    | 0 =>
      match read quoted p c rest with
      | .skip => ofChars quoted 0 (p.advance c) rest
      | .fault e => { tokens := [], ending := .fault e }
      | .token lexeme kind quoted =>
        let t : Token := { lexeme := String.ofList lexeme, kind, position := p }
        if kind = .eof then { tokens := [t], ending := .sentinel rest (p.advance c) }
        else cons t (ofChars quoted (lexeme.length - 1) (p.advance c) rest)

/-- Scan a source text. -/
def ofSource (source : String) : Scan := ofChars false 0 .start source.toList

/-- The tokens of a text that can be read. -/
def result (s : Scan) : Except ScanError (List Token) :=
  match s.ending with
  | .fault e => .error e
  | _ => .ok s.tokens

/-- The event of a token read. -/
def tokenEvent (t : Token) : Event :=
  { phase := .lex, severity := .found, profile := .verbose,
    text := t.kind.name ++ " '" ++ t.lexeme ++ "'", position := some t.position }

/-- The events of an ending: an error, or a warning about a missing sentinel or about text after
it. -/
def endingEvents : Ending → List Event
  | .fault e =>
    [{ phase := .lex, severity := .error, text := e.message, position := some e.position }]
  | .exhausted p =>
    [{ phase := .lex, severity := .warning, text := "reached end of input without '$'",
       position := some p }]
  | .sentinel rest p =>
    if rest.all Text.isBlank then []
    else
      [{ phase := .lex, severity := .warning, position := some p,
         text := "ignoring " ++ toString rest.length ++ " character(s) after '$'" }]

/-- All that is said while scanning. -/
def events (s : Scan) : List Event := s.tokens.map tokenEvent ++ endingEvents s.ending

/-- The tokens of a scan with its events. -/
def report (s : Scan) : Report ScanError (List Token) := { result := s.result, events := s.events }

end Scan

end OnePage
