import OnePage.Token

/-!
# Events

Every stage says what it does as a list of events. An event belongs to a phase, has a severity and
the profile of the readers it is meant for, and may cite a place in the source. A report pairs the
events of a stage with its result.

Specification: sections 6 and B.1.
-/

namespace OnePage

/-- The stages of a compilation. -/
inductive Phase where
  | lex
  | parse
  | semantic
  | codeGen
  deriving DecidableEq

/-- The title of a phase. -/
def Phase.title : Phase → String
  | lex => "Lex"
  | parse => "Parse"
  | semantic => "Semantic Analysis"
  | codeGen => "Code Generation"

/-- What an event means. -/
inductive Severity where
  | message
  /-- Something expected was found. -/
  | found
  | warning
  | error
  /-- Bookkeeping. -/
  | chatter
  deriving DecidableEq

/-- Who an event is meant for, from the fewest events to the most. -/
inductive Profile where
  | endUser
  | verbose
  | everything
  deriving DecidableEq

/-- The place of a profile in the order from the fewest events to the most. -/
def Profile.rank : Profile → Nat
  | endUser => 0
  | verbose => 1
  | everything => 2

/-- Something a stage said. -/
structure Event where
  phase : Phase
  severity : Severity
  text : String
  profile : Profile := .endUser
  position : Option Position := none
  deriving DecidableEq

/-- How loud an event is in a log. -/
inductive Level where
  | error
  | warn
  | info
  | debug
  | trace
  deriving DecidableEq

/-- A line of a log. -/
structure LogRecord where
  level : Level
  phase : String
  line : Nat
  column : Nat
  message : String
  deriving DecidableEq

namespace Event

/-- Whether an event reports an error. -/
def isError (e : Event) : Bool := e.severity == .error

/-- Whether an event reports a warning. -/
def isWarning (e : Event) : Bool := e.severity == .warning

/-- Whether an event is meant for readers of a profile. -/
def isWithin (profile : Profile) (e : Event) : Bool := e.profile.rank ≤ profile.rank

/-- The word for what an event reports, and the place it cites. -/
def heading (e : Event) : String :=
  let word := match e.severity with
    | .error => "error"
    | .warning => "warning"
    | _ => ""
  match e.position with
  | none => if word.isEmpty then "" else word ++ ": "
  | some p => (if word.isEmpty then "" else word ++ " ") ++ "at " ++ p.text ++ ": "

/-- The text of an event with its phase and heading. -/
def display (e : Event) : String := "[" ++ e.phase.title ++ "] " ++ e.heading ++ e.text

/-- Errors and warnings keep their level; all else is louder the fewer readers it is kept from. -/
def level (e : Event) : Level :=
  match e.severity, e.profile with
  | .error, _ => .error
  | .warning, _ => .warn
  | _, .endUser => .info
  | _, .verbose => .debug
  | _, .everything => .trace

/-- The log record of an event. -/
def record (e : Event) : LogRecord :=
  let p := e.position.getD .nowhere
  { level := e.level, phase := e.phase.title, line := p.line, column := p.column,
    message := e.text }

end Event

/-- The result of a stage with all it said. -/
structure Report (ε α : Type) where
  result : Except ε α
  events : List Event

end OnePage
