import OnePage.Proofs.Prediction

/-!
# Parse errors point at the first impossible token

The depth to which a program is read is always enough: a greater one gives the same result, also
where reading fails. With parsers that look one token ahead this makes errors exact. The tokens
before the one that an error names can be gone on with to a program, and those up to it cannot.
-/

namespace OnePage

namespace Parser

variable {tokens : List Token}

private theorem branch_congr {p : Production} {children other : Parser}
    (h : children tokens = other tokens) : branch p children tokens = branch p other tokens := by
  rw [branch, branch, h]

/-- Sequences agree if their first parts do and the others do on what these leave. -/
theorem seq_congr {first same : Parser} {others more : List Parser}
    (h : first tokens = same tokens)
    (k : ∀ trees rest, same tokens = .ok (trees, rest) → seq others rest = seq more rest) :
    seq (first :: others) tokens = seq (same :: more) tokens := by
  rw [seq, seq]
  dsimp only
  rw [h]
  cases hfirst : same tokens with
  | error failure => rfl
  | ok result =>
    obtain ⟨trees, rest⟩ := result
    dsimp only
    rw [k trees rest hfirst]

private theorem seq_token_congr {kind : Kind} {others more : List Parser}
    (k : ∀ rest, rest.length < tokens.length → seq others rest = seq more rest) :
    seq (token kind :: others) tokens = seq (token kind :: more) tokens := by
  refine seq_congr rfl fun trees rest hok ↦ k rest ?_
  obtain ⟨m, rfl, rfl⟩ := token_eq_ok.mp hok
  exact Nat.lt_succ_self _

private theorem seq_terminal_congr {p : Production} {kind : Kind} {others more : List Parser}
    (k : ∀ rest, rest.length < tokens.length → seq others rest = seq more rest) :
    seq (terminal p kind :: others) tokens = seq (terminal p kind :: more) tokens := by
  refine seq_congr rfl fun trees rest hok ↦ k rest ?_
  obtain ⟨m, rfl, rfl⟩ := terminal_eq_ok.mp hok
  exact Nat.lt_succ_self _

private theorem length_of_nextKind {kind : Kind} (h : nextKind tokens = some kind) :
    0 < tokens.length := by
  obtain ⟨m, back, rfl⟩ := Derivation.nextKind_eq_some h
  exact Nat.succ_pos _

end Parser

namespace Derivation

open OnePage.Parser

/-! ### Enough depth -/

-- The recursion is on the depth. Two levels of an expression have a token between them, so a depth
-- of twice the number of tokens is never used up.
mutual

private theorem expr_deeper : ∀ {depth : Nat} {tokens : List Token}, 2 * tokens.length < depth →
    expr (depth + 1) tokens = expr depth tokens
  | depth + 1, tokens, h => by
    rw [expr, expr]
    refine branch_congr ?_
    split
    · next hnext =>
      have := length_of_nextKind hnext
      exact intExpr_deeper (by omega) (by omega)
    · rfl
    · next hnext =>
      have := length_of_nextKind hnext
      exact boolExpr_deeper (by omega) (by omega)
    · next hnext =>
      have := length_of_nextKind hnext
      exact boolExpr_deeper (by omega) (by omega)
    · rfl
    · rfl

private theorem intExpr_deeper : ∀ {depth : Nat} {tokens : List Token}, 0 < depth →
    2 * tokens.length ≤ depth → intExpr (depth + 1) tokens = intExpr depth tokens
  | depth + 1, tokens, _, h => by
    rw [intExpr, intExpr]
    refine branch_congr (seq_terminal_congr fun rest hrest ↦ seq_congr ?_ fun _ _ _ ↦ rfl)
    split
    · exact seq_terminal_congr fun last hlast ↦
        seq_congr (expr_deeper (by omega)) fun _ _ _ ↦ rfl
    · rfl

private theorem boolExpr_deeper : ∀ {depth : Nat} {tokens : List Token}, 0 < depth →
    2 * tokens.length ≤ depth → boolExpr (depth + 1) tokens = boolExpr depth tokens
  | depth + 1, tokens, _, h => by
    rw [boolExpr, boolExpr]
    refine branch_congr ?_
    split
    · rfl
    · refine seq_token_congr fun rest hrest ↦ seq_congr (expr_deeper (by omega)) ?_
      intro trees mid hleft
      obtain ⟨left, rfl, rfl⟩ := expr_sound hleft
      rw [List.length_append] at hrest
      exact seq_terminal_congr fun last hlast ↦
        seq_congr (expr_deeper (by omega)) fun _ _ _ ↦ rfl

end

private theorem printStatement_deeper {depth : Nat} {tokens : List Token}
    (h : 2 * tokens.length < depth + 2) :
    printStatement (depth + 1) tokens = printStatement depth tokens :=
  branch_congr (seq_token_congr fun _ _ ↦ seq_token_congr fun _ _ ↦
    seq_congr (expr_deeper (by omega)) fun _ _ _ ↦ rfl)

private theorem assignmentStatement_deeper {depth : Nat} {tokens : List Token}
    (h : 2 * tokens.length < depth + 2) :
    assignmentStatement (depth + 1) tokens = assignmentStatement depth tokens :=
  branch_congr (seq_terminal_congr fun _ _ ↦ seq_token_congr fun _ _ ↦
    seq_congr (expr_deeper (by omega)) fun _ _ _ ↦ rfl)

/-- A word, a condition and a block, of which the block can be read deeper. -/
theorem guarded_deeper {p : Production} {kind : Kind} {depth : Nat} {tokens : List Token}
    (hblock : ∀ rest : List Token, rest.length < tokens.length →
      block (depth + 1) rest = block depth rest)
    (hpos : 0 < depth) (h : 2 * tokens.length ≤ depth + 2) :
    branch p (seq [token kind, boolExpr (depth + 1), block (depth + 1)]) tokens =
      branch p (seq [token kind, boolExpr depth, block depth]) tokens := by
  refine branch_congr (seq_token_congr fun rest hrest ↦
    seq_congr (boolExpr_deeper hpos (by omega)) ?_)
  intro trees mid hcondition
  obtain ⟨condition, rfl, rfl⟩ := boolExpr_sound hcondition
  rw [List.length_append] at hrest
  exact seq_congr (hblock mid (by omega)) fun _ _ _ ↦ rfl

-- Three levels of statements have a token between them.
mutual

private theorem block_deeper : ∀ {depth : Nat} {tokens : List Token}, 0 < depth →
    3 * tokens.length ≤ depth + 1 → block (depth + 1) tokens = block depth tokens
  | depth + 1, tokens, _, h => by
    rw [block, block]
    exact branch_congr (seq_token_congr fun rest hrest ↦
      seq_congr (statementList_deeper (by omega)) fun _ _ _ ↦ rfl)

private theorem statementList_deeper : ∀ {depth : Nat} {tokens : List Token},
    3 * tokens.length < depth → statementList (depth + 1) tokens = statementList depth tokens
  | depth + 1, tokens, h => by
    rw [statementList, statementList]
    dsimp only
    split
    · rfl
    · rfl
    · next kind _ hnext =>
      have hpos := length_of_nextKind hnext
      refine branch_congr (seq_congr (statement_deeper (by omega) (by omega)) ?_)
      intro trees rest hstatement
      obtain ⟨s, rfl, rfl⟩ := statement_sound hstatement
      obtain ⟨m, kind, back, htokens, _⟩ := stmt_starts s
      rw [List.length_append, htokens, List.length_cons] at h
      exact seq_congr (statementList_deeper (by omega)) fun _ _ _ ↦ rfl

private theorem statement_deeper : ∀ {depth : Nat} {tokens : List Token}, 0 < depth →
    3 * tokens.length ≤ depth → statement (depth + 1) tokens = statement depth tokens
  | depth + 1, tokens, _, h => by
    rw [statement, statement]
    refine branch_congr ?_
    split
    · exact printStatement_deeper (by omega)
    · exact assignmentStatement_deeper (by omega)
    · rfl
    · next hnext =>
      have := length_of_nextKind hnext
      exact guarded_deeper (fun rest hrest ↦ block_deeper (by omega) (by omega)) (by omega)
        (by omega)
    · next hnext =>
      have := length_of_nextKind hnext
      exact guarded_deeper (fun rest hrest ↦ block_deeper (by omega) (by omega)) (by omega)
        (by omega)
    · next hnext =>
      have := length_of_nextKind hnext
      exact block_deeper (by omega) (by omega)
    · rfl

end

/-- To any depth that is not less than the one chosen for the tokens, a program is read the same. -/
theorem programTo_eq {depth : Nat} {tokens : List Token} (h : depthFor tokens ≤ depth) :
    programTo depth tokens = program tokens := by
  induction h with
  | refl => rfl
  | step hle ih =>
    rw [depthFor, Nat.le_eq] at hle
    rw [← ih]
    exact branch_congr (seq_congr (block_deeper (by omega) (by omega)) fun _ _ _ ↦ rfl)

/-- Where a program cannot be read, what was read is the start of one, and whatever follows the next
token, no program can be read. -/
theorem program_stops {tokens : List Token} {failure : ParseFailure}
    (h : program tokens = .error failure) :
    ∃ back, tokens = failure.read ++ back ∧ failure.error.At back ∧
      (∃ more, Derives [.part .program] (failure.read.map Token.kind ++ more)) ∧
      ∀ other, nextKind other = nextKind back →
        ∃ later, program (failure.read ++ other) = .error later := by
  obtain ⟨back, htokens, hat, hmore, _⟩ := (predicts_programTo _).stops h
  refine ⟨back, htokens, hat, hmore, fun other hother ↦ ?_⟩
  -- Both lists of tokens are read to the greater of their depths.
  let depth := max (depthFor tokens) (depthFor (failure.read ++ other))
  rw [← programTo_eq (Nat.le_max_left _ _ : depthFor tokens ≤ depth)] at h
  obtain ⟨again, htokens', _, _, hlocal⟩ := (predicts_programTo depth).stops h
  obtain rfl : again = back := List.append_cancel_left (htokens'.symm.trans htokens)
  rw [← programTo_eq (Nat.le_max_right _ _ : depthFor (failure.read ++ other) ≤ depth)]
  exact hlocal other hother

end Derivation

/-- A parse fails where no program can be read. -/
theorem parse_eq_error {tokens : List Token} {e : ParseError} :
    (parse tokens).result = .error e ↔
      ∃ failure, Derivation.program tokens = .error failure ∧ failure.error = e := by
  simp only [parse, parsePrograms, Session.programsOf, Session.program]
  cases h : Derivation.program tokens with
  | error failure => simp [Session.report]
  | ok result => simp [Session.report]

/-- The kinds can be gone on with to those of a program. -/
def Viable (kinds : List Kind) : Prop := ∃ more, Derives [.part .program] (kinds ++ more)

/-- Tokens that start a program are read as one with some tokens after them. -/
theorem Viable.reads {tokens : List Token} (h : Viable (tokens.map Token.kind)) :
    ∃ more cst, Derivation.program (tokens ++ more) = .ok cst := by
  obtain ⟨more, hderives⟩ := h
  let ending : List Token := more.map fun kind ↦ { lexeme := "", kind, position := .nowhere }
  have hkinds : (tokens ++ ending).map Token.kind = tokens.map Token.kind ++ more := by
    simp [ending, Function.comp_def]
  rw [← hkinds] at hderives
  obtain ⟨p, hp⟩ := derives_program_iff.mp hderives
  have hread := Derivation.program_complete p []
  rw [List.append_nil, ← hp] at hread
  exact ⟨ending, _, hread⟩

/-- A parse error points at the first impossible token. If it names a token, that token is one of
those read, at which the kinds before it can be gone on with to a program and the kinds up to it
cannot. If it says that the tokens end, all of them can be gone on with to a program, and none are
one from the first on. -/
theorem parse_error_first_impossible (tokens : List Token) :
    (∀ expected found position,
      (parse tokens).result = .error (.unexpectedToken expected found position) →
        ∃ front t back, tokens = front ++ t :: back ∧ t.lexeme = found ∧ t.position = position ∧
          Viable (front.map Token.kind) ∧ ¬Viable ((front ++ [t]).map Token.kind)) ∧
    ∀ expected, (parse tokens).result = .error (.unexpectedEnd expected) →
      Viable (tokens.map Token.kind) ∧
        ∀ front, front <+: tokens → ¬Derives [.part .program] (front.map Token.kind) := by
  refine ⟨fun expected found position h ↦ ?_, fun expected h ↦ ⟨?_, ?_⟩⟩
  · obtain ⟨failure, hprogram, herror⟩ := parse_eq_error.mp h
    obtain ⟨_, htokens, hat, hviable, hlocal⟩ := Derivation.program_stops hprogram
    rw [herror] at hat
    obtain ⟨t, back, rfl, hlexeme, hposition⟩ := hat
    refine ⟨failure.read, t, back, htokens, hlexeme, hposition, hviable, fun himpossible ↦ ?_⟩
    obtain ⟨more, cst, hread⟩ := himpossible.reads
    obtain ⟨later, hlater⟩ := hlocal (t :: more) rfl
    rw [List.append_assoc, List.singleton_append, hlater] at hread
    cases hread
  · obtain ⟨failure, hprogram, herror⟩ := parse_eq_error.mp h
    obtain ⟨_, htokens, hat, hviable, _⟩ := Derivation.program_stops hprogram
    rw [herror] at hat
    obtain rfl := hat
    rw [List.append_nil] at htokens
    rw [htokens]
    exact hviable
  · rintro front ⟨rest, rfl⟩ hderives
    obtain ⟨p, rfl⟩ := derives_program_iff.mp hderives
    rw [parse_eq_ok.mpr ⟨rest, Derivation.program_complete p rest⟩] at h
    cases h

/-- A condition whose parenthesis is not closed, then a block. -/
def unclosedCondition : List Token :=
  [⟨"\x7b", .braceOpen, ⟨1, 1⟩⟩, ⟨"if", .ifWord, ⟨2, 1⟩⟩, ⟨"(", .parenOpen, ⟨2, 4⟩⟩,
   ⟨"1", .digit, ⟨2, 5⟩⟩, ⟨"+", .intOp, ⟨2, 6⟩⟩, ⟨"2", .digit, ⟨2, 7⟩⟩, ⟨"==", .boolOp, ⟨2, 9⟩⟩,
   ⟨"3", .digit, ⟨2, 12⟩⟩, ⟨"\x7b", .braceOpen, ⟨2, 14⟩⟩, ⟨"\x7d", .braceClose, ⟨2, 15⟩⟩]

/-- The error names the brace after the condition; without it, the tokens end too early. -/
theorem parse_error_first_impossible_unclosed :
    (∃ front t back, unclosedCondition = front ++ t :: back ∧ t.lexeme = "\x7b" ∧
      t.position = ⟨2, 14⟩ ∧ Viable (front.map Token.kind) ∧
      ¬Viable ((front ++ [t]).map Token.kind)) ∧
    Viable ((unclosedCondition.take 8).map Token.kind) ∧
      ∀ front, front <+: unclosedCondition.take 8 →
        ¬Derives [.part .program] (front.map Token.kind) :=
  ⟨(parse_error_first_impossible _).1 "')'" "\x7b" ⟨2, 14⟩ rfl,
    (parse_error_first_impossible _).2 "')'" rfl⟩

end OnePage
