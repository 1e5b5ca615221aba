import OnePage.Proofs.Spelling
import OnePage.Draft

/-!
# What programs mean

The meaning of a program, read off its tree alone: a variable is found by its name, the innermost
first, and symbols play no part. Numbers are added modulo 256, values are compared by content, and a
declaration gives a variable its first value each time it is executed. What a block declares is gone
at its end.

Each loop may go round a number of times; a program terminates if some number is enough for it, and
diverges if none is.
-/

namespace OnePage

/-- A value of a running program. -/
inductive Datum where
  | int (value : UInt8)
  | flag (value : Bool)
  | text (value : String)
  deriving DecidableEq

namespace Datum

/-- The type of a value. -/
def type : Datum → VarType
  | int _ => .int
  | flag _ => .boolean
  | text _ => .string

/-- What printing a value writes: a number in decimal, a text as it is, a word for a truth value. -/
def shown : Datum → String
  | int value => toString value.toNat
  | flag value => if value then "true" else "false"
  | text value => value

/-- The value with which a variable of a type starts. -/
def first? : VarType → Option Datum
  | .int => some (int 0)
  | .boolean => some (flag false)
  | .string => some (text "")
  | .none => none

/-- A variable that has a type has a first value. -/
theorem exists_first? {t : VarType} (h : t ≠ .none) : ∃ v, first? t = some v := by
  cases t with
  | int | boolean | string => exact ⟨_, rfl⟩
  | none => exact absurd rfl h

/-- The first value of a type is of that type. -/
theorem type_first? {t : VarType} {v : Datum} (h : first? t = some v) : v.type = t := by
  cases t <;> cases h <;> rfl

end Datum

namespace Interpreter

/-- The variables in scope with their values, innermost first. -/
abbrev Env := List (String × Datum)

/-- Give the innermost variable of a name a new value. -/
def assign (name : String) (value : Datum) : Env → Option Env
  | [] => none
  | (other, old) :: env =>
    if other = name then some ((other, value) :: env)
    else (assign name value env).map ((other, old) :: ·)

/-- The value of a token. -/
def evalToken (env : Env) (token : Token) : Option Datum :=
  match token.kind with
  | .digit =>
    match token.lexeme.toList with
    | [c] => if isDecimal c then some (.int (UInt8.ofNat (c.toNat - '0'.toNat))) else none
    | _ => none
  | .boolVal =>
    if token.lexeme = "true" then some (.flag true)
    else if token.lexeme = "false" then some (.flag false)
    else none
  | .identifier => env.lookup token.lexeme
  | _ => none

/-- The value of an operation on two values. Only values of one type can be compared. -/
def operate (operator : Token) (left right : Datum) : Option Datum :=
  match operator.kind with
  | .intOp =>
    match left, right with
    | .int x, .int y => some (.int (x + y))
    | _, _ => none
  | .boolOp =>
    if left.type ≠ right.type then none
    else if operator.lexeme = "==" then some (.flag (left == right))
    else if operator.lexeme = "!=" then some (.flag (left != right))
    else none
  | _ => none

/-- The value of an expression. -/
def eval (env : Env) : Tree Resolved → Option Datum
  | .node r [] =>
    match r.node with
    | .literal value _ => some (.text value)
    | .leaf token => evalToken env token
    | .branch _ => none
  | .node r [left, right] =>
    match r.node, eval env left, eval env right with
    | .leaf operator, some x, some y => operate operator x y
    | _, _, _ => none
  | _ => none

/-- A program between two statements. -/
structure State where
  env : Env := []
  /-- All that was printed. -/
  output : String := ""

/-- How a statement ends. -/
inductive Result where
  | done (state : State)
  /-- A loop went round as often as it may. -/
  | unfinished
  /-- The statement has no meaning. -/
  | stuck

/-- Go on from where a statement ended, if it did. -/
def Result.andThen (r : Result) (next : State → Result) : Result :=
  match r with
  | done s => next s
  | unfinished => unfinished
  | stuck => stuck

/-- Declare a variable. -/
def declare (s : State) (type name : Resolved) : Result :=
  match type.node, name.node with
  | .leaf keyword, .leaf identifier =>
    match Datum.first? (.ofKeyword keyword.lexeme) with
    | some value => .done { s with env := (identifier.lexeme, value) :: s.env }
    | none => .stuck
  | _, _ => .stuck

/-- Assign the value of an expression to a variable. -/
def store (s : State) (target : Resolved) (value : Tree Resolved) : Result :=
  match target.node, eval s.env value with
  | .leaf identifier, some v =>
    match assign identifier.lexeme v s.env with
    | some env => .done { s with env }
    | none => .stuck
  | _, _ => .stuck

/-- Print the value of an expression. -/
def print (s : State) (value : Tree Resolved) : Result :=
  match eval s.env value with
  | some v => .done { s with output := s.output ++ v.shown }
  | none => .stuck

/-- Execute a body if a condition holds. -/
def branch (condition : Tree Resolved) (body : State → Result) (s : State) : Result :=
  match eval s.env condition with
  | some (.flag true) => body s
  | some (.flag false) => .done s
  | _ => .stuck

/-- Execute a body as long as a condition holds, which is tested a number of times at most. -/
def repeatWhile (condition : Tree Resolved) (body : State → Result) : Nat → State → Result
  | 0, _ => .unfinished
  | n + 1, s =>
    match eval s.env condition with
    | some (.flag true) => (body s).andThen (repeatWhile condition body n)
    | some (.flag false) => .done s
    | _ => .stuck

/-- Forget the variables declared since there were those of an outer block. -/
def leave (outer : Env) (s : State) : State :=
  { s with env := s.env.drop (s.env.length - outer.length) }

mutual

/-- Execute a statement whose loops may go round the given number of times. -/
def exec (rounds : Nat) : Tree Resolved → State → Result
  | .node r children, s =>
    match r.node, children with
    | .branch .block, body =>
      (execAll rounds body s).andThen fun last ↦ .done (leave s.env last)
    | .branch .varDecl, [type, name] => declare s type.label name.label
    | .branch .assignmentStatement, [target, value] => store s target.label value
    | .branch .printStatement, [value] => print s value
    | .branch .ifStatement, [condition, body] => branch condition (exec rounds body) s
    | .branch .whileStatement, [condition, body] =>
      repeatWhile condition (exec rounds body) rounds s
    | _, _ => .stuck

/-- Execute statements one after the other. -/
def execAll (rounds : Nat) : Forest Resolved → State → Result
  | [], s => .done s
  | t :: ts, s => (exec rounds t s).andThen (execAll rounds ts)

end

/-- The program ends, having printed a text. -/
def Terminates (program : Tree Resolved) (output : String) : Prop :=
  ∃ rounds s, exec rounds program {} = .done s ∧ s.output = output

/-- The program goes on for ever. -/
def Diverges (program : Tree Resolved) : Prop := ∀ rounds, exec rounds program {} = .unfinished

end Interpreter

end OnePage
