import OnePage.Derivation
import OnePage.Tree.Builder

/-!
# Going down the grammar step by step

A descent reads tokens by their index and builds its forest node by node under a cursor, saying what
it does. Its first error stays: from then on it still goes through every step, but no step changes
anything. What it does for a nonterminal is given as a plan. Each plan can also be taken as a parser
of forests, and the plans of the grammar are its parsers. A descent that follows a plan adds the
trees that the parser reads, says the nodes that the parser makes, and ends with the parser's error.
-/

namespace OnePage

/-! ### Descents -/

/-- The state of a descent. -/
structure Descent where
  tokens : List Token
  /-- The number of tokens read. -/
  index : Nat := 0
  builder : Builder Node := {}
  /-- The first error. -/
  error : Option ParseError := none
  /-- What was said. -/
  events : List Event := []

namespace Descent

open Session

/-- The tokens not read yet. -/
def left (d : Descent) : List Token := d.tokens.drop d.index

/-- The kind of the next token, or nothing after an error. -/
def peekKind (d : Descent) : Option Kind :=
  if d.error.isSome then none else d.tokens[d.index]?.map Token.kind

/-- Change a descent unless it has an error. -/
def unlessFailed (change : Descent → Descent) (d : Descent) : Descent :=
  if d.error.isSome then d else change d

/-- Fail at the next token, where something else was expected. -/
def unexpected (expected : String) : Descent → Descent := unlessFailed fun d ↦
  let error := match d.tokens[d.index]? with
    | some t => .unexpectedToken expected t.lexeme t.position
    | none => .unexpectedEnd expected
  { d with error := some error, events := d.events ++ [errorEvent error] }

/-- Read one token of the given kind. -/
def accept (kind : Kind) : Descent → Descent := unlessFailed fun d ↦
  match d.tokens[d.index]? with
  | some t =>
    if t.kind = kind then
      { d with
        index := d.index + 1
        builder := d.builder.addLeaf (.leaf t)
        events := d.events ++ [nodeEvent (.leaf t)] }
    else d.unexpected kind.describe
  | none => d.unexpected kind.describe

/-- Read tokens of the given kind while they come next, at most so many. -/
def acceptWhile (kind : Kind) : Nat → Descent → Descent
  | 0, d => d
  | n + 1, d => if d.peekKind = some kind then acceptWhile kind n (d.accept kind) else d

/-- Make a node and go below it. -/
def enter (production : Production) : Descent → Descent := unlessFailed fun d ↦
  { d with
    builder := d.builder.addBranch (.branch production)
    events := d.events ++ [nodeEvent (.branch production)] }

/-- Go back up to the node above. -/
def leave : Descent → Descent := unlessFailed fun d ↦ { d with builder := d.builder.climb }

end Descent

/-! ### Plans -/

/-- What a descent does for a part of the grammar. -/
inductive Plan where
  /-- Read one token of the kind. -/
  | token (kind : Kind)
  /-- Read all tokens of the kind that come next. -/
  | tokensOf (kind : Kind)
  | unexpected (expected : String)
  | seq (parts : List Plan)
  /-- Make a node with what is read below it. -/
  | branch (production : Production) (children : Plan)
  /-- Go on as the kind of the next token says. -/
  | peek (choose : Option Kind → Plan)

namespace Plan

mutual

/-- Follow a plan. -/
def run : Plan → Descent → Descent
  | token kind, d => d.accept kind
  | tokensOf kind, d => d.acceptWhile kind d.left.length
  | unexpected expected, d => d.unexpected expected
  | seq parts, d => runAll parts d
  | branch production children, d => (children.run (d.enter production)).leave
  | peek choose, d => (choose d.peekKind).run d

/-- Follow one plan after the other. -/
def runAll : List Plan → Descent → Descent
  | [], d => d
  | part :: parts, d => runAll parts (part.run d)

end

mutual

/-- The parser that reads what a plan reads. -/
def parser : Plan → Parser
  | token kind => Parser.token kind
  | tokensOf kind => Parser.tokensOf kind
  | unexpected expected => Parser.unexpected expected
  | seq parts => Parser.seq (parsers parts)
  | branch production children => Parser.branch production children.parser
  | peek choose => fun tokens ↦ (choose (Parser.nextKind tokens)).parser tokens

/-- The parsers of some plans. -/
def parsers : List Plan → List Parser
  | [] => []
  | part :: parts => part.parser :: parsers parts

end

/-- Read nothing. -/
def nothing : Plan := seq []

/-- Choose by whether a token of the kind comes next. -/
def ifNext (kind : Kind) (yes no : Plan) : Plan := peek fun next ↦
  if next = some kind then yes else no

private theorem parser_nothing : nothing.parser = Parser.nothing := by
  rw [nothing, parser, parsers, Parser.seq]

private theorem parser_ifNext (kind : Kind) (yes no : Plan) :
    (ifNext kind yes no).parser = fun tokens ↦
    if Parser.nextKind tokens = some kind then yes.parser tokens else no.parser tokens := by
  rw [ifNext, parser]
  funext tokens
  split <;> rfl

/-! ### The plans of the grammar -/

/-- Read a node with one token below it. -/
def terminal (production : Production) (kind : Kind) : Plan := branch production (token kind)

/-- Read a name. -/
def name : Plan := terminal .name .identifier

/-- Read the characters between two quotes. -/
def charList : Plan := ifNext .char (branch .charList (tokensOf .char)) nothing

/-- Read a text in quotes. -/
def stringExpr : Plan := branch .stringExpr (seq [token .quote, charList, token .quote])

/-- Read a declaration. -/
def varDecl : Plan := branch .varDecl (seq [terminal .typeName .typeWord, name])

mutual

/-- Read an expression of at most the given depth. -/
def expr : Nat → Plan
  | 0 => unexpected "expression"
  | depth + 1 => branch .expr <| peek fun
    | some .identifier => name
    | some .digit => intExpr depth
    | some .quote => stringExpr
    | some .parenOpen | some .boolVal => boolExpr depth
    | _ => unexpected "expression"

/-- Read a digit, or a sum that starts with one. -/
def intExpr : Nat → Plan
  | 0 => unexpected "expression"
  | depth + 1 => branch .intExpr (seq [terminal .digit .digit,
      ifNext .intOp (seq [terminal .intOp .intOp, expr depth]) nothing])

/-- Read a truth value, or a comparison in parentheses. -/
def boolExpr : Nat → Plan
  | 0 => unexpected "expression"
  | depth + 1 => branch .boolExpr <| ifNext .boolVal (terminal .boolVal .boolVal)
      (seq [token .parenOpen, expr depth, terminal .boolOp .boolOp, expr depth, token .parenClose])

end

/-- Read a print statement. -/
def printStatement (depth : Nat) : Plan :=
  branch .printStatement (seq [token .printWord, token .parenOpen, expr depth, token .parenClose])

/-- Read an assignment. -/
def assignmentStatement (depth : Nat) : Plan :=
  branch .assignmentStatement (seq [name, token .assign, expr depth])

mutual

/-- Read a block of at most the given depth. -/
def block : Nat → Plan
  | 0 => unexpected Kind.braceOpen.describe
  | depth + 1 => branch .block (seq [token .braceOpen, statementList depth, token .braceClose])

/-- Read statements up to the end of their block. -/
def statementList : Nat → Plan
  | 0 => unexpected "statement"
  | depth + 1 => peek fun
    | some .braceClose | none => nothing
    | some _ => branch .statementList (seq [statement depth, statementList depth])

/-- Read a statement. -/
def statement : Nat → Plan
  | 0 => unexpected "statement"
  | depth + 1 => branch .statement <| peek fun
    | some .braceOpen => block depth
    | some .printWord => printStatement depth
    | some .identifier => assignmentStatement depth
    | some .typeWord => varDecl
    | some .whileWord =>
      branch .whileStatement (seq [token .whileWord, boolExpr depth, block depth])
    | some .ifWord =>
      branch .ifStatement (seq [token .ifWord, boolExpr depth, block depth])
    | _ => unexpected "statement"

end

/-- Read a program of at most the given depth. -/
def programTo (depth : Nat) : Plan := branch .program (seq [block depth, token .eof])

/-! The plans of the grammar are its parsers. -/

/-- The plan for a terminal reads what its parser reads. -/
theorem parser_terminal (production : Production) (kind : Kind) :
    (terminal production kind).parser = Parser.terminal production kind := by
  rw [terminal, parser, parser, Parser.terminal]

/-- The plan for a name reads what its parser reads. -/
theorem parser_name : name.parser = Derivation.name := parser_terminal ..

/-- The plan for a list of characters reads what its parser reads. -/
theorem parser_charList : charList.parser = Derivation.charList := by
  funext tokens
  simp only [charList, parser_ifNext, parser_nothing, parser, Derivation.charList]

/-- The plan for a text reads what its parser reads. -/
theorem parser_stringExpr : stringExpr.parser = Derivation.stringExpr := by
  simp only [stringExpr, parser, parsers, parser_charList, Derivation.stringExpr]

/-- The plan for a declaration reads what its parser reads. -/
theorem parser_varDecl : varDecl.parser = Derivation.varDecl := by
  simp only [varDecl, parser, parsers, parser_terminal, parser_name, Derivation.varDecl]

mutual

/-- The plan for an expression reads what its parser reads, at every depth. -/
theorem parser_expr : ∀ depth, (expr depth).parser = Derivation.expr depth
  | 0 => by rw [expr, parser, Derivation.expr]
  | depth + 1 => by
    rw [expr, parser, parser, Derivation.expr]
    congr 1
    funext tokens
    generalize Parser.nextKind tokens = next
    split
    · rw [parser_name]
    · rw [parser_intExpr depth]
    · rw [parser_stringExpr]
    · rw [parser_boolExpr depth]
    · rw [parser_boolExpr depth]
    · rw [parser]
      split <;> first | rfl | contradiction

/-- The plan for a sum reads what its parser reads, at every depth. -/
theorem parser_intExpr : ∀ depth, (intExpr depth).parser = Derivation.intExpr depth
  | 0 => by rw [intExpr, parser, Derivation.intExpr]
  | depth + 1 => by
    simp only [intExpr, parser, parsers, parser_terminal, parser_ifNext, parser_expr depth,
      parser_nothing, Derivation.intExpr]

/-- The plan for a truth value or comparison reads what its parser reads, at every depth. -/
theorem parser_boolExpr : ∀ depth, (boolExpr depth).parser = Derivation.boolExpr depth
  | 0 => by rw [boolExpr, parser, Derivation.boolExpr]
  | depth + 1 => by
    simp only [boolExpr, parser, parsers, parser_terminal, parser_ifNext, parser_expr depth,
      Derivation.boolExpr]

end

/-- The plan for a print statement reads what its parser reads. -/
theorem parser_printStatement (depth : Nat) :
    (printStatement depth).parser = Derivation.printStatement depth := by
  simp only [printStatement, parser, parsers, parser_expr, Derivation.printStatement]

/-- The plan for an assignment reads what its parser reads. -/
theorem parser_assignmentStatement (depth : Nat) :
    (assignmentStatement depth).parser = Derivation.assignmentStatement depth := by
  simp only [assignmentStatement, parser, parsers, parser_name, parser_expr,
    Derivation.assignmentStatement]

mutual

/-- The plan for a block reads what its parser reads, at every depth. -/
theorem parser_block : ∀ depth, (block depth).parser = Derivation.block depth
  | 0 => by rw [block, parser, Derivation.block]
  | depth + 1 => by
    simp only [block, parser, parsers, parser_statementList depth, Derivation.block]

/-- The plan for a list of statements reads what its parser reads, at every depth. -/
theorem parser_statementList : ∀ depth,
    (statementList depth).parser = Derivation.statementList depth
  | 0 => by rw [statementList, parser, Derivation.statementList]
  | depth + 1 => by
    rw [statementList, parser, Derivation.statementList]
    funext tokens
    generalize Parser.nextKind tokens = next
    split
    · rw [parser_nothing]
    · rw [parser_nothing]
    · simp only [parser, parsers, parser_statement depth, parser_statementList depth]

/-- The plan for a statement reads what its parser reads, at every depth. -/
theorem parser_statement : ∀ depth, (statement depth).parser = Derivation.statement depth
  | 0 => by rw [statement, parser, Derivation.statement]
  | depth + 1 => by
    rw [statement, parser, parser, Derivation.statement]
    congr 1
    funext tokens
    generalize Parser.nextKind tokens = next
    split
    · rw [parser_block depth]
    · rw [parser_printStatement]
    · rw [parser_assignmentStatement]
    · rw [parser_varDecl]
    · simp only [parser, parsers, parser_boolExpr, parser_block depth]
    · simp only [parser, parsers, parser_boolExpr, parser_block depth]
    · rw [parser]
      split <;> first | rfl | contradiction

end

/-- The plan of a program is the parser of programs. -/
theorem parser_programTo (depth : Nat) :
    (programTo depth).parser = Derivation.programTo depth := by
  simp only [programTo, parser, parsers, parser_block, Derivation.programTo]

end Plan

/-! ### Building the trees of a parser -/

namespace Builder

variable {α : Type}

/-- Add trees below the innermost of the open nodes. -/
def attachAll (ts : Forest α) (b : Builder α) : Builder α := ts.foldl (fun b t ↦ b.attach t) b

/-- Trees are added one list after the other. -/
theorem attachAll_append (xs ys : Forest α) (b : Builder α) :
    b.attachAll (xs ++ ys) = (b.attachAll xs).attachAll ys :=
  List.foldl_append

/-- Adding a list of one tree is adding the tree. -/
theorem attachAll_singleton (t : Tree α) (b : Builder α) : b.attachAll [t] = b.attach t := rfl

/-- Without open nodes the trees are complete. -/
theorem attachAll_closed (ts complete : Forest α) :
    attachAll ts { complete, spine := [] } = { complete := complete ++ ts, spine := [] } := by
  induction ts generalizing complete with
  | nil => rw [List.append_nil]; rfl
  | cons t ts ih =>
    rw [List.append_cons]
    exact ih (complete ++ [t])

/-- Trees added below an open node become its last children. -/
theorem attachAll_open (ts complete : Forest α) (n : OpenNode α) (above : List (OpenNode α)) :
    attachAll ts { complete, spine := n :: above } =
      { complete, spine := { n with children := n.children ++ ts } :: above } := by
  induction ts generalizing n with
  | nil => rw [List.append_nil]; rfl
  | cons t ts ih =>
    rw [List.append_cons]
    exact ih { n with children := n.children ++ [t] }

/-- A node made with trees below it and left again is a tree added. -/
theorem climb_attachAll_addBranch (a : α) (ts : Forest α) (b : Builder α) :
    ((b.addBranch a).attachAll ts).climb = b.attach (.node a ts) := by
  rw [addBranch, attachAll_open]
  rfl

end Builder

namespace Descent

open Session OnePage.Parser

/-- The descent after it has read and built some trees. -/
def grown (trees : Forest Node) (index : Nat) (d : Descent) : Descent :=
  { d with
    index
    builder := d.builder.attachAll trees
    events := d.events ++ (Forest.labels trees).map nodeEvent }

/-- What a descent comes to if a parser reads what is left with the given result. -/
inductive ReadsTo (d : Descent) :
    Except ParseFailure (Forest Node × List Token) → Descent → Prop where
  | ok {trees : Forest Node} {rest : List Token} {index : Nat} (h : rest = d.tokens.drop index) :
    ReadsTo d (.ok (trees, rest)) (d.grown trees index)
  | error (failure : ParseFailure) (index : Nat) (builder : Builder Node) :
    ReadsTo d (.error failure) { d with
      index, builder
      error := some failure.error
      events := d.events ++ (failure.made.map nodeEvent ++ [errorEvent failure.error]) }

variable {d : Descent}

private theorem grown_nil (d : Descent) : d.grown [] d.index = d := by
  simp [grown, Builder.attachAll, Forest.labels]

private theorem grown_grown (xs ys : Forest Node) (i j : Nat) (d : Descent) :
    (d.grown xs i).grown ys j = d.grown (xs ++ ys) j := by
  simp [grown, Builder.attachAll_append, Forest.labels_append]

/-- After an error no change is made. -/
theorem unlessFailed_of_failed {change : Descent → Descent} (h : d.error.isSome = true) :
    d.unlessFailed change = d := if_pos h

/-- Without an error the change is made. -/
theorem unlessFailed_of_none {change : Descent → Descent} (h : d.error = none) :
    d.unlessFailed change = change d := by
  rw [unlessFailed, h]
  rfl

private theorem enter_of_none {production : Production} (h : d.error = none) :
    d.enter production = { d with
      builder := d.builder.addBranch (.branch production)
      events := d.events ++ [nodeEvent (.branch production)] } :=
  unlessFailed_of_none h

/-- After an error there is no next token. -/
theorem peekKind_of_failed (h : d.error.isSome = true) : d.peekKind = none := if_pos h

private theorem getElem?_index (d : Descent) : d.tokens[d.index]? = d.left.head? := by
  rw [left, List.head?_drop]

private theorem peekKind_of_none (h : d.error = none) : d.peekKind = nextKind d.left := by
  rw [peekKind, h, getElem?_index]
  rfl

private theorem readsTo_unexpected (h : d.error = none) (expected : String) :
    ReadsTo d (Parser.unexpected expected d.left) (d.unexpected expected) := by
  rw [unexpected, unlessFailed_of_none h, getElem?_index]
  cases d.left with
  | nil => exact .error ..
  | cons t rest => exact .error ..

private theorem readsTo_accept (h : d.error = none) (kind : Kind) :
    ReadsTo d (Parser.token kind d.left) (d.accept kind) := by
  have hunexpected := readsTo_unexpected h kind.describe
  rw [accept, unlessFailed_of_none h, getElem?_index]
  cases hleft : d.left with
  | nil =>
    rw [hleft] at hunexpected
    exact hunexpected
  | cons t rest =>
    rw [hleft] at hunexpected
    rw [Parser.token]
    dsimp only [List.head?_cons]
    split
    · have hrest : rest = d.tokens.drop (d.index + 1) := by
        rw [← List.tail_drop, ← left, hleft, List.tail_cons]
      exact .ok hrest
    · exact hunexpected

namespace ReadsTo

variable {e f : Descent} {xs ys : Forest Node} {mid rest : List Token} {failure : ParseFailure}

private theorem nothing (d : Descent) : ReadsTo d (.ok ([], d.left)) d := by
  have h : ReadsTo d (.ok ([], d.left)) (d.grown [] d.index) := .ok rfl
  rwa [grown_nil] at h

/-- A descent whose parser has not failed can go on with the rest. -/
theorem live (h : ReadsTo d (.ok (xs, rest)) e) (hd : d.error = none) :
    e.error = none ∧ e.left = rest := by
  cases h with
  | ok hrest => exact ⟨hd, hrest.symm⟩

/-- A descent has the error with which its parser fails. -/
theorem error_eq (h : ReadsTo d (.error failure) e) : e.error = some failure.error := by
  cases h
  rfl

private theorem failed (h : ReadsTo d (.error failure) e) : e.error.isSome = true := by
  rw [h.error_eq]
  rfl

/-- Trees are added one part after the other. -/
theorem append (h : ReadsTo d (.ok (xs, mid)) e) (k : ReadsTo e (.ok (ys, rest)) f) :
    ReadsTo d (.ok (xs ++ ys, rest)) f := by
  cases h
  cases k with
  | ok hrest =>
    rw [grown_grown]
    exact .ok hrest

/-- A failure after some trees has made their nodes first. -/
theorem append_error (h : ReadsTo d (.ok (xs, mid)) e) (k : ReadsTo e (.error failure) f) :
    ReadsTo d (.error { failure with made := Forest.labels xs ++ failure.made }) f := by
  cases h
  cases k with
  | error _ index builder =>
    have herror := ReadsTo.error (d := d) { failure with
      made := Forest.labels xs ++ failure.made } index builder
    simpa [grown] using herror

/-- What is read below a node is its children, once the node is left again. -/
theorem branch {production : Production} {children : Parser} (hd : d.error = none)
    (h : ReadsTo (d.enter production) (children d.left) f) :
    ReadsTo d (Parser.branch production children d.left) f.leave := by
  rw [enter_of_none hd] at h
  rw [Parser.branch]
  cases hchildren : children d.left with
  | error failure =>
    rw [hchildren] at h
    -- The node is not left again, so the descent stays below it.
    rw [leave, unlessFailed_of_failed h.failed]
    cases h with
    | error _ index builder =>
      have herror := ReadsTo.error (d := d) { failure with
        made := .branch production :: failure.made } index builder
      simpa using herror
  | ok result =>
    obtain ⟨trees, rest⟩ := result
    rw [hchildren] at h
    rw [leave, unlessFailed_of_none (h.live hd).1]
    cases h with
    | @ok _ _ index hrest =>
      have hok : ReadsTo d (.ok ([.node (.branch production) trees], rest)) _ := .ok hrest
      simpa [grown, Builder.climb_attachAll_addBranch, Builder.attachAll_singleton, Forest.labels,
        Tree.labels] using hok

end ReadsTo

/-- So many tokens as are left are enough to accept all that come next. -/
theorem readsTo_acceptWhile (kind : Kind) {n : Nat} (h : d.error = none) (hn : d.left.length ≤ n) :
    ReadsTo d (tokensOf kind d.left) (d.acceptWhile kind n) := by
  have hnothing := ReadsTo.nothing d
  induction n generalizing d with
  | zero =>
    rw [List.eq_nil_of_length_eq_zero (Nat.le_zero.mp hn)] at hnothing ⊢
    exact hnothing
  | succ n ih =>
    have haccept := readsTo_accept h kind
    rw [acceptWhile, peekKind_of_none h]
    cases hleft : d.left with
    | nil =>
      rw [hleft] at hnothing
      exact hnothing
    | cons t rest =>
      rw [hleft] at hnothing haccept hn
      by_cases hkind : t.kind = kind
      · rw [Parser.token, if_pos hkind] at haccept
        obtain ⟨hnone, hrest⟩ := haccept.live h
        have hmore := ih hnone (by rw [hrest]; exact Nat.le_of_succ_le_succ hn) (.nothing _)
        rw [hrest] at hmore
        have hall := haccept.append hmore
        simpa [tokensOf, nextKind, hkind] using hall
      · simpa [tokensOf, nextKind, hkind] using hnothing

end Descent

namespace Plan

mutual

/-- After an error a plan changes nothing. -/
theorem run_of_failed : ∀ (p : Plan) {d : Descent}, d.error.isSome = true → p.run d = d
  | token kind, d, h => by
    rw [run]
    exact Descent.unlessFailed_of_failed h
  | tokensOf kind, d, h => by
    rw [run]
    cases d.left.length with
    | zero => rfl
    | succ n =>
      rw [Descent.acceptWhile, Descent.peekKind_of_failed h]
      rfl
  | unexpected expected, d, h => by
    rw [run]
    exact Descent.unlessFailed_of_failed h
  | seq parts, d, h => by
    rw [run]
    exact runAll_of_failed parts h
  | branch production children, d, h => by
    have henter : d.enter production = d := Descent.unlessFailed_of_failed h
    have hleave : d.leave = d := Descent.unlessFailed_of_failed h
    rw [run, henter, run_of_failed children h, hleave]
  | peek choose, d, h => by
    rw [run]
    exact run_of_failed (choose d.peekKind) h

private theorem runAll_of_failed : ∀ (ps : List Plan) {d : Descent}, d.error.isSome = true →
    runAll ps d = d
  | [], d, h => by rw [runAll]
  | p :: ps, d, h => by rw [runAll, run_of_failed p h, runAll_of_failed ps h]

end

mutual

/-- A descent that follows a plan comes to what the parser of the plan reads. -/
theorem readsTo_run : ∀ (p : Plan) {d : Descent}, d.error = none →
    d.ReadsTo (p.parser d.left) (p.run d)
  | token kind, d, h => by
    rw [run, parser]
    exact Descent.readsTo_accept h kind
  | tokensOf kind, d, h => by
    rw [run, parser]
    exact Descent.readsTo_acceptWhile kind h (Nat.le_refl _)
  | unexpected expected, d, h => by
    rw [run, parser]
    exact Descent.readsTo_unexpected h expected
  | seq parts, d, h => by
    rw [run, parser]
    exact readsTo_runAll parts h
  | branch production children, d, h => by
    have hnone : (d.enter production).error = none := by
      rw [Descent.enter_of_none h]
      exact h
    have hleft : (d.enter production).left = d.left := by
      rw [Descent.enter_of_none h]
      rfl
    have hchildren := readsTo_run children hnone
    rw [hleft] at hchildren
    rw [run, parser]
    exact hchildren.branch h
  | peek choose, d, h => by
    rw [run, parser, Descent.peekKind_of_none h]
    exact readsTo_run (choose (Parser.nextKind d.left)) h

private theorem readsTo_runAll : ∀ (ps : List Plan) {d : Descent}, d.error = none →
    d.ReadsTo (Parser.seq (parsers ps) d.left) (runAll ps d)
  | [], d, h => by
    rw [runAll, parsers, Parser.seq]
    exact .nothing d
  | p :: ps, d, h => by
    have hfirst := readsTo_run p h
    rw [runAll, parsers, Parser.seq]
    dsimp only
    cases hparser : p.parser d.left with
    | error failure =>
      -- The parser stops here, while the descent goes through the other parts without a change.
      rw [hparser] at hfirst
      rw [runAll_of_failed ps hfirst.failed]
      exact hfirst
    | ok result =>
      obtain ⟨trees, rest⟩ := result
      rw [hparser] at hfirst
      obtain ⟨hnone, hleft⟩ := hfirst.live h
      have hothers := readsTo_runAll ps hnone
      rw [hleft] at hothers
      dsimp only
      cases hseq : Parser.seq (parsers ps) rest with
      | error failure =>
        rw [hseq] at hothers
        exact hfirst.append_error hothers
      | ok result =>
        rw [hseq] at hothers
        exact hfirst.append hothers

end

end Plan

end OnePage
