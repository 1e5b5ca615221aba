import OnePage.Proofs.Repetition

/-!
# Procedures that call each other

One procedure for each nonterminal reads the grammar. The procedures call each other, and nothing
bounds the depth of their calls. They do not stop at an error: a descent that has failed still goes
through all their steps. A call is made here with a number of frames, and has a result if it does
not need more than that. The result is the descent where the call ends, with the tree of all calls
made on the way. Then the plans of that depth come to the same descent.
-/

namespace OnePage

/-- The procedures that read the grammar. -/
inductive Procedure where
  | program
  | block
  | statementList
  | statement
  | printStatement
  | assignmentStatement
  | varDecl
  | whileStatement
  | ifStatement
  | expr
  | intExpr
  | stringExpr
  | charList
  | boolExpr
  | name
  | terminal (production : Production) (kind : Kind)
  deriving DecidableEq

/-- What a procedure does. -/
inductive Routine where
  | nothing
  /-- Read one token of the kind. -/
  | token (kind : Kind)
  /-- Read all tokens of the kind that come next. -/
  | tokensOf (kind : Kind)
  | unexpected (expected : String)
  | andThen (first second : Routine)
  /-- Make a node with what is read below it. -/
  | branch (production : Production) (children : Routine)
  /-- Go on as the kind of the next token says. -/
  | peek (choose : Option Kind → Routine)
  | call (procedure : Procedure)

/-- Do one thing after the other. -/
def Routine.all : List Routine → Routine
  | [] => nothing
  | r :: rs => andThen r (all rs)

/-- Choose by whether a token of the kind comes next. -/
def Routine.ifNext (kind : Kind) (yes no : Routine) : Routine := peek fun next ↦
  if next = some kind then yes else no

open Routine in
/-- What each procedure does. -/
def Procedure.body : Procedure → Routine
  | program => branch .program (all [call block, token .eof])
  | block => branch .block (all [token .braceOpen, call statementList, token .braceClose])
  | statementList => peek fun next ↦
    if next = none ∨ next = some .braceClose then nothing
    else branch .statementList (all [call statement, call statementList])
  | statement => branch .statement <| peek fun
    | some .typeWord => call varDecl
    | some .whileWord => call whileStatement
    | some .ifWord => call ifStatement
    | some .braceOpen => call block
    | some .printWord => call printStatement
    | some .identifier => call assignmentStatement
    | _ => unexpected "statement"
  | printStatement => branch .printStatement
      (all [token .printWord, token .parenOpen, call expr, token .parenClose])
  | assignmentStatement => branch .assignmentStatement
      (all [call name, token .assign, call expr])
  | varDecl => branch .varDecl (all [call (terminal .typeName .typeWord), call name])
  | whileStatement => branch .whileStatement (all [token .whileWord, call boolExpr, call block])
  | ifStatement => branch .ifStatement (all [token .ifWord, call boolExpr, call block])
  | expr => branch .expr <| peek fun
    | some .quote => call stringExpr
    | some .parenOpen | some .boolVal => call boolExpr
    | some .identifier => call name
    | some .digit => call intExpr
    | _ => unexpected "expression"
  | intExpr => branch .intExpr (all [call (terminal .digit .digit),
      ifNext .intOp (all [call (terminal .intOp .intOp), call expr]) nothing])
  | stringExpr => branch .stringExpr (all [token .quote, call charList, token .quote])
  | charList => ifNext .char (branch .charList (tokensOf .char)) nothing
  | boolExpr => branch .boolExpr (ifNext .boolVal (call (terminal .boolVal .boolVal))
      (all [token .parenOpen, call expr, call (terminal .boolOp .boolOp), call expr,
        token .parenClose]))
  | name => call (terminal .name .identifier)
  | terminal production kind => branch production (token kind)

/-! ### Calls -/

/-- A call of a procedure, with the descent where it starts and the one where it ends. -/
structure Visit where
  procedure : Procedure
  entry : Descent
  exit : Descent

/-- Do what a routine says, with a way to call procedures. A loop that has not ended when it went
round as often as there are tokens left does not end. -/
def Routine.perform (onCall : Procedure → Descent → Option (Tree Visit × Descent)) :
    Routine → Descent → Option (Forest Visit × Descent)
  | nothing, d => some ([], d)
  | token kind, d => some ([], d.accept kind)
  | tokensOf kind, d =>
    let e := d.acceptWhile kind d.left.length
    if e.peekKind = some kind then none else some ([], e)
  | unexpected expected, d => some ([], d.unexpected expected)
  | andThen first second, d => (first.perform onCall d).bind fun front ↦
      (second.perform onCall front.2).map fun back ↦ (front.1 ++ back.1, back.2)
  | branch production children, d =>
    (children.perform onCall (d.enter production)).map fun below ↦ (below.1, below.2.leave)
  | peek choose, d => (choose d.peekKind).perform onCall d
  | call p, d => (onCall p d).map fun called ↦ ([called.1], called.2)

/-- Call a procedure, with so many frames. -/
def Procedure.call : Nat → Procedure → Descent → Option (Tree Visit × Descent)
  | 0, _, _ => none
  | frames + 1, p, d => (p.body.perform (call frames) d).map fun below ↦
      (.node { procedure := p, entry := d, exit := below.2 } below.1, below.2)

namespace Routine

variable {onCall other : Procedure → Descent → Option (Tree Visit × Descent)}

/-- A way to call procedures that gives a result more often gives the same results. -/
theorem perform_mono (h : ∀ p d result, onCall p d = some result → other p d = some result)
    (r : Routine) {d : Descent} {result : Forest Visit × Descent}
    (hr : r.perform onCall d = some result) : r.perform other d = some result := by
  induction r generalizing d result with
  | nothing | token kind | tokensOf kind | unexpected expected => exact hr
  | andThen first second hfirst hsecond =>
    obtain ⟨front, hfront, hrest⟩ := Option.bind_eq_some_iff.mp hr
    obtain ⟨back, hback, rfl⟩ := Option.map_eq_some_iff.mp hrest
    exact Option.bind_eq_some_iff.mpr ⟨front, hfirst hfront,
      Option.map_eq_some_iff.mpr ⟨back, hsecond hback, rfl⟩⟩
  | branch production children ih =>
    obtain ⟨below, hbelow, rfl⟩ := Option.map_eq_some_iff.mp hr
    exact Option.map_eq_some_iff.mpr ⟨below, ih hbelow, rfl⟩
  | peek choose ih => exact ih d.peekKind hr
  | call p =>
    obtain ⟨called, hcalled, rfl⟩ := Option.map_eq_some_iff.mp hr
    exact Option.map_eq_some_iff.mpr ⟨called, h p d called hcalled, rfl⟩

end Routine

/-- With more frames a call has the same result. -/
theorem Procedure.call_mono {frames more : Nat} (hle : frames ≤ more) {p : Procedure} {d : Descent}
    {result : Tree Visit × Descent} (h : p.call frames d = some result) :
    p.call more d = some result := by
  induction frames generalizing more p d result with
  | zero => cases h
  | succ frames ih =>
    obtain ⟨more, rfl⟩ := Nat.exists_eq_add_of_le' (Nat.lt_of_lt_of_le (Nat.succ_pos frames) hle)
    obtain ⟨below, hbelow, rfl⟩ := Option.map_eq_some_iff.mp h
    have hmore := Routine.perform_mono (fun q e result ↦ ih (Nat.le_of_succ_le_succ hle)) _ hbelow
    exact Option.map_eq_some_iff.mpr ⟨below, hmore, rfl⟩

/-! ### Plans -/

/-- Do what a routine says, if each procedure is known to come to a descent. -/
def Routine.follow (onCall : Procedure → Descent → Descent) : Routine → Descent → Descent
  | nothing, d => d
  | token kind, d => d.accept kind
  | tokensOf kind, d => d.acceptWhile kind d.left.length
  | unexpected expected, d => d.unexpected expected
  | andThen first second, d => second.follow onCall (first.follow onCall d)
  | branch production children, d => (children.follow onCall (d.enter production)).leave
  | peek choose, d => (choose d.peekKind).follow onCall d
  | call p, d => onCall p d

private theorem Routine.follow_ifNext (known : Procedure → Descent → Descent) (kind : Kind)
    (yes no : Routine) (d : Descent) : (ifNext kind yes no).follow known d =
      if d.peekKind = some kind then yes.follow known d else no.follow known d := by
  rw [ifNext, follow]
  split <;> rfl

private theorem Plan.run_ifNext (kind : Kind) (yes no : Plan) (d : Descent) :
    (ifNext kind yes no).run d = if d.peekKind = some kind then yes.run d else no.run d := by
  rw [ifNext, run]
  split <;> rfl

private theorem Routine.follow_of_perform
    {onCall : Procedure → Descent → Option (Tree Visit × Descent)}
    {known : Procedure → Descent → Descent}
    (h : ∀ p d result, onCall p d = some result → known p d = result.2) (r : Routine) {d : Descent}
    {result : Forest Visit × Descent} (hr : r.perform onCall d = some result) :
    r.follow known d = result.2 := by
  induction r generalizing d result with
  | nothing | token kind | unexpected expected =>
    cases hr
    rfl
  | tokensOf kind =>
    dsimp only [perform] at hr
    split at hr
    · cases hr
    · cases hr
      rfl
  | andThen first second hfirst hsecond =>
    obtain ⟨front, hfront, hrest⟩ := Option.bind_eq_some_iff.mp hr
    obtain ⟨back, hback, rfl⟩ := Option.map_eq_some_iff.mp hrest
    rw [follow, hfirst hfront, hsecond hback]
  | branch production children ih =>
    obtain ⟨below, hbelow, rfl⟩ := Option.map_eq_some_iff.mp hr
    rw [follow, ih hbelow]
  | peek choose ih => exact ih d.peekKind hr
  | call p =>
    obtain ⟨called, hcalled, rfl⟩ := Option.map_eq_some_iff.mp hr
    exact h p d called hcalled

namespace Procedure

/-- The plan of a procedure, to a bounded depth. -/
def plan (depth : Nat) : Procedure → Plan
  | program => .programTo depth
  | block => .block depth
  | statementList => .statementList depth
  | statement => .statement depth
  | printStatement => .printStatement depth
  | assignmentStatement => .assignmentStatement depth
  | varDecl => .varDecl
  | whileStatement =>
    .branch .whileStatement (.seq [.token .whileWord, .boolExpr depth, .block depth])
  | ifStatement => .branch .ifStatement (.seq [.token .ifWord, .boolExpr depth, .block depth])
  | expr => .expr depth
  | intExpr => .intExpr depth
  | stringExpr => .stringExpr
  | charList => .charList
  | boolExpr => .boolExpr depth
  | name => .name
  | terminal production kind => .terminal production kind

/-- The parser of what a procedure reads, to a bounded depth. -/
def parser (depth : Nat) : Procedure → Parser
  | program => Derivation.programTo depth
  | block => Derivation.block depth
  | statementList => Derivation.statementList depth
  | statement => Derivation.statement depth
  | printStatement => Derivation.printStatement depth
  | assignmentStatement => Derivation.assignmentStatement depth
  | varDecl => Derivation.varDecl
  | whileStatement => Parser.branch .whileStatement
      (Parser.seq [Parser.token .whileWord, Derivation.boolExpr depth, Derivation.block depth])
  | ifStatement => Parser.branch .ifStatement
      (Parser.seq [Parser.token .ifWord, Derivation.boolExpr depth, Derivation.block depth])
  | expr => Derivation.expr depth
  | intExpr => Derivation.intExpr depth
  | stringExpr => Derivation.stringExpr
  | charList => Derivation.charList
  | boolExpr => Derivation.boolExpr depth
  | name => Derivation.name
  | terminal production kind => Parser.terminal production kind

/-- The plan of a procedure reads what its parser reads, at every depth. -/
theorem parser_plan (depth : Nat) (p : Procedure) : (p.plan depth).parser = p.parser depth := by
  cases p with
  | program => exact Plan.parser_programTo depth
  | block => exact Plan.parser_block depth
  | statementList => exact Plan.parser_statementList depth
  | statement => exact Plan.parser_statement depth
  | printStatement => exact Plan.parser_printStatement depth
  | assignmentStatement => exact Plan.parser_assignmentStatement depth
  | varDecl => exact Plan.parser_varDecl
  | whileStatement | ifStatement =>
    simp only [plan, parser, Plan.parser, Plan.parsers, Plan.parser_boolExpr, Plan.parser_block]
  | expr => exact Plan.parser_expr depth
  | intExpr => exact Plan.parser_intExpr depth
  | stringExpr => exact Plan.parser_stringExpr
  | charList => exact Plan.parser_charList
  | boolExpr => exact Plan.parser_boolExpr depth
  | name => exact Plan.parser_name
  | terminal production kind => exact Plan.parser_terminal production kind

/-- A plan does what its procedure does, with plans of one level less or of the same depth for what
the procedure calls. -/
theorem follow_body (p : Procedure) (depth : Nat) : ∃ inner, depth ≤ inner ∧
    ∀ d, p.body.follow (fun q ↦ (q.plan inner).run) d = (p.plan (depth + 1)).run d := by
  cases p with
  | block => exact ⟨depth, Nat.le_refl _, fun d ↦ rfl⟩
  | statementList =>
    refine ⟨depth, Nat.le_refl _, fun d ↦ ?_⟩
    rw [plan, Plan.statementList, Plan.run, body, Routine.follow]
    generalize d.peekKind = next
    cases next with
    | none => rfl
    | some kind => cases kind <;> rfl
  | statement =>
    refine ⟨depth, Nat.le_refl _, fun d ↦ ?_⟩
    rw [plan, Plan.statement, Plan.run, Plan.run, body, Routine.follow, Routine.follow]
    generalize (d.enter .statement).peekKind = next
    cases next with
    | none => rfl
    | some kind => cases kind <;> rfl
  | expr =>
    refine ⟨depth, Nat.le_refl _, fun d ↦ ?_⟩
    rw [plan, Plan.expr, Plan.run, Plan.run, body, Routine.follow, Routine.follow]
    generalize (d.enter .expr).peekKind = next
    cases next with
    | none => rfl
    | some kind => cases kind <;> rfl
  | intExpr =>
    refine ⟨depth, Nat.le_refl _, fun d ↦ ?_⟩
    rw [plan, Plan.intExpr, Plan.run, Plan.run, Plan.runAll, Plan.runAll, Plan.run_ifNext, body,
      Routine.follow, Routine.all, Routine.follow, Routine.all, Routine.follow,
      Routine.follow_ifNext]
    rfl
  | boolExpr =>
    refine ⟨depth, Nat.le_refl _, fun d ↦ ?_⟩
    rw [plan, Plan.boolExpr, Plan.run, Plan.run_ifNext, body, Routine.follow, Routine.follow_ifNext]
    rfl
  | charList =>
    refine ⟨depth, Nat.le_refl _, fun d ↦ ?_⟩
    rw [plan, Plan.charList, Plan.run_ifNext, body, Routine.follow_ifNext]
    rfl
  | program | printStatement | assignmentStatement | varDecl | whileStatement | ifStatement
  | stringExpr | name | terminal production kind =>
    exact ⟨depth + 1, Nat.le_succ _, fun d ↦ rfl⟩

/-- Where a call has a result, plans that are at least as deep as its frames come to the same
descent. -/
theorem run_plan_of_call {frames depth : Nat} (hle : frames ≤ depth) {p : Procedure} {d : Descent}
    {result : Tree Visit × Descent} (h : p.call frames d = some result) :
    (p.plan depth).run d = result.2 := by
  induction frames generalizing depth p d result with
  | zero => cases h
  | succ frames ih =>
    obtain ⟨depth, rfl⟩ := Nat.exists_eq_add_of_le' (Nat.lt_of_lt_of_le (Nat.succ_pos frames) hle)
    obtain ⟨below, hbelow, rfl⟩ := Option.map_eq_some_iff.mp h
    obtain ⟨inner, hinner, hfollow⟩ := p.follow_body depth
    -- A plan may go one level down where the procedure uses up a frame, but never more.
    have hcalls : frames ≤ inner := Nat.le_trans (Nat.le_of_succ_le_succ hle) hinner
    rw [← hfollow]
    exact Routine.follow_of_perform (fun q e result ↦ ih hcalls) _ hbelow

end Procedure

end OnePage
