import OnePage.Proofs.Parsing
import OnePage.Token.Scan

/-!
# The grammar is what is accepted

Every phrase is read back, with its tree, from its tokens and any tokens after it that cannot extend
it. With what parsers accept this makes reading exact: tokens are read as a program if some of them,
from the first on, are derivable as one, and then just these are read.
-/

namespace OnePage

namespace Parser

variable {tokens mid rest : List Token} {inner trees : Forest Node} {tree : Tree Node}

private theorem nextKind_cons (m : Mark) (kind : Kind) (rest : List Token) :
    nextKind (m.token kind :: rest) = some kind := rfl

private theorem branch_of {p : Production} {children : Parser}
    (h : children tokens = .ok (inner, rest)) :
    branch p children tokens = .ok ([.node (.branch p) inner], rest) :=
  branch_eq_ok.mpr ⟨inner, h, rfl⟩

private theorem terminal_of (p : Production) (m : Mark) (kind : Kind) (rest : List Token) :
    terminal p kind (m.token kind :: rest) = .ok ([m.wrapped p kind], rest) :=
  terminal_eq_ok.mpr ⟨m, rfl, rfl⟩

/-- A sequence starts with one tree. -/
theorem seq_of {first : Parser} {others : List Parser} (h : first tokens = .ok ([tree], mid))
    (k : seq others mid = .ok (trees, rest)) :
    seq (first :: others) tokens = .ok (tree :: trees, rest) :=
  seq_cons_eq_ok.mpr ⟨[tree], mid, trees, h, k, rfl⟩

private theorem seq_token {others : List Parser} {m : Mark} {kind : Kind}
    (k : seq others mid = .ok (trees, rest)) :
    seq (token kind :: others) (m.token kind :: mid) = .ok (m.leaf kind :: trees, rest) :=
  seq_token_eq_ok.mpr ⟨m, mid, trees, rfl, k, rfl⟩

private theorem seq_terminal {others : List Parser} {m : Mark} {p : Production} {kind : Kind}
    (k : seq others mid = .ok (trees, rest)) :
    seq (terminal p kind :: others) (m.token kind :: mid) =
      .ok (m.wrapped p kind :: trees, rest) :=
  seq_terminal_eq_ok.mpr ⟨m, mid, trees, rfl, k, rfl⟩

private theorem seq_end (tokens : List Token) : seq [] tokens = .ok ([], tokens) := rfl

end Parser

namespace Derivation

open OnePage.Parser

/-! ### Expressions -/

private theorem charList_complete (chars : List Mark) {rest : List Token}
    (follow : nextKind rest ≠ some .char) :
    charList (chars.map (·.token .char) ++ rest) = .ok (charTrees chars, rest) := by
  have hrest : rest.takeWhile (·.kind == .char) = [] ∧ rest.dropWhile (·.kind == .char) = rest := by
    cases rest with
    | nil => exact ⟨rfl, rfl⟩
    | cons t rest =>
      have ht : ¬(t.kind == .char) := by simpa [nextKind] using follow
      exact ⟨List.takeWhile_cons_of_neg ht, List.dropWhile_cons_of_neg ht⟩
  have hall : ∀ t ∈ chars.map (·.token .char), t.kind == .char := by simp
  cases chars with
  | nil =>
    rw [charList, if_neg]
    · rfl
    · exact follow
  | cons m ms =>
    have hnext : nextKind ((m :: ms).map (·.token .char) ++ rest) = some .char := rfl
    rw [charList, if_pos hnext]
    apply branch_of
    rw [tokensOf, List.takeWhile_append_of_pos hall, List.dropWhile_append_of_pos hall, hrest.1,
      hrest.2, List.append_nil, List.map_map]
    rfl

private theorem stringExpr_complete (opening : Mark) (chars : List Mark) (closing : Mark)
    (rest : List Token) :
    stringExpr ((ExprPhrase.text opening chars closing).tokens ++ rest) =
      .ok ([.node (.branch .stringExpr)
        (opening.leaf .quote :: (charTrees chars ++ [closing.leaf .quote]))], rest) := by
  have hchars : charList (chars.map (·.token .char) ++ closing.token .quote :: rest) = _ :=
    charList_complete chars (by simp [nextKind])
  rw [ExprPhrase.tokens, List.cons_append, List.append_assoc]
  exact branch_of (seq_token (seq_cons_eq_ok.mpr
    ⟨_, _, _, hchars, seq_token (seq_end rest), rfl⟩))

/-- An expression has a token. -/
theorem length_tokens_pos (e : ExprPhrase) : 0 < e.tokens.length := by
  cases e with
  | bool value => cases value <;> simp [ExprPhrase.tokens, BoolPhrase.tokens]
  | _ => simp [ExprPhrase.tokens]

/-- How a truth value or a comparison starts. -/
theorem nextKind_bool (b : BoolPhrase) (rest : List Token) :
    nextKind (b.tokens ++ rest) = some .boolVal ∨
      nextKind (b.tokens ++ rest) = some .parenOpen := by
  cases b with
  | value m => exact .inl (by simp [BoolPhrase.tokens, nextKind])
  | compare opening left operator right closing =>
    exact .inr (by simp [BoolPhrase.tokens, nextKind])

-- The recursion is on the phrase. An expression takes two levels, its own and that of what it is,
-- and has a token for them, so twice as many levels as tokens are enough.
mutual

private theorem expr_complete : ∀ (e : ExprPhrase) {depth : Nat} {rest : List Token},
    2 * e.tokens.length ≤ depth → nextKind rest ≠ some .intOp →
      expr depth (e.tokens ++ rest) = .ok ([e.tree], rest)
  | .digit m, depth + 2, rest, _, follow => by
    rw [ExprPhrase.tokens, ExprPhrase.tree, expr, intExpr]
    refine branch_of (branch_of (seq_terminal ?_))
    exact seq_cons_eq_ok.mpr ⟨[], rest, [], if_neg follow, rfl, rfl⟩
  | .sum m plus e, depth + 2, rest, enough, follow => by
    have henough : 2 * e.tokens.length ≤ depth := by
      simp only [ExprPhrase.tokens, List.length_cons] at enough
      omega
    rw [ExprPhrase.tokens, ExprPhrase.tree, expr, intExpr]
    refine branch_of (branch_of (seq_terminal ?_))
    have hrest : seq [terminal .intOp .intOp, expr depth]
        (plus.token .intOp :: (e.tokens ++ rest)) =
          .ok ([plus.wrapped .intOp .intOp, e.tree], rest) :=
      seq_terminal (seq_of (expr_complete e henough follow) (seq_end rest))
    refine seq_cons_eq_ok.mpr ⟨[plus.wrapped .intOp .intOp, e.tree], rest, [], ?_, rfl, rfl⟩
    exact (if_pos (nextKind_cons plus .intOp _)).trans hrest
  | .text opening chars closing, depth + 1, rest, _, _ => by
    rw [ExprPhrase.tree, expr]
    exact branch_of (stringExpr_complete opening chars closing rest)
  | .bool b, depth + 1, rest, enough, follow => by
    have henough : 2 * b.tokens.length ≤ depth + 1 := by
      rwa [ExprPhrase.tokens] at enough
    rw [ExprPhrase.tokens, ExprPhrase.tree, expr]
    apply branch_of
    rcases nextKind_bool b rest with h | h
    · rw [h]
      exact boolExpr_complete b henough
    · rw [h]
      exact boolExpr_complete b henough
  | .name m, depth + 1, rest, _, _ => by
    rw [ExprPhrase.tokens, ExprPhrase.tree, expr]
    exact branch_of (terminal_of .name m .identifier rest)
  | e, 0, _, enough, _ => by
    have := length_tokens_pos e
    omega
  | .digit m, 1, _, enough, _ => by
    simp [ExprPhrase.tokens] at enough
  | .sum m plus e, 1, _, enough, _ => by
    simp [ExprPhrase.tokens] at enough
    omega

private theorem boolExpr_complete : ∀ (b : BoolPhrase) {depth : Nat} {rest : List Token},
    2 * b.tokens.length ≤ depth + 1 → boolExpr depth (b.tokens ++ rest) = .ok ([b.tree], rest)
  | .value m, depth + 1, rest, _ => by
    rw [BoolPhrase.tokens, BoolPhrase.tree, boolExpr]
    refine branch_of ?_
    exact (if_pos (nextKind_cons m .boolVal rest)).trans (terminal_of .boolVal m .boolVal rest)
  | .compare opening left operator right closing, depth + 1, rest, enough => by
    simp only [BoolPhrase.tokens, List.length_cons, List.length_append, List.length_nil] at enough
    have hleft : expr depth (left.tokens ++ (operator.token .boolOp :: (right.tokens ++
        (closing.token .parenClose :: rest)))) = _ :=
      expr_complete left (by omega) (by simp [nextKind])
    have hright : expr depth (right.tokens ++ (closing.token .parenClose :: rest)) = _ :=
      expr_complete right (by omega) (by simp [nextKind])
    rw [BoolPhrase.tree, boolExpr]
    simp only [BoolPhrase.tokens, List.cons_append, List.append_assoc, List.nil_append]
    refine branch_of ?_
    rw [if_neg (by simp [nextKind])]
    exact seq_token (seq_of hleft (seq_terminal (seq_of hright (seq_token (seq_end rest)))))
  | .value m, 0, _, enough => by
    simp [BoolPhrase.tokens] at enough
  | .compare opening left operator right closing, 0, _, enough => by
    simp [BoolPhrase.tokens] at enough
    omega

end

/-! ### Statements -/

/-- A statement starts with a token that neither ends a block nor goes on with a sum. -/
theorem stmt_starts (s : StmtPhrase) : ∃ (m : Mark) (kind : Kind) (back : List Token),
    s.tokens = m.token kind :: back ∧ kind ≠ .braceClose ∧ kind ≠ .intOp := by
  cases s with
  | block opening body closing =>
    exact ⟨_, _, _, by rw [StmtPhrase.tokens, blockTokens], by decide, by decide⟩
  | _ => exact ⟨_, _, _, by rw [StmtPhrase.tokens], by decide, by decide⟩

private theorem follow_stmts (ss : List StmtPhrase) {rest : List Token}
    (follow : nextKind rest = some .braceClose) :
    nextKind (StmtPhrase.allTokens ss ++ rest) ≠ some .intOp := by
  cases ss with
  | nil => simp [StmtPhrase.allTokens, follow]
  | cons s ss =>
    obtain ⟨m, kind, back, htokens, _, hkind⟩ := stmt_starts s
    simpa [StmtPhrase.allTokens, htokens, nextKind] using hkind

/-- A block is read if its statements are. -/
theorem block_of {depth : Nat} {opening closing : Mark} {tokens rest : List Token}
    {trees : Forest Node}
    (h : statementList depth (tokens ++ (closing.token .braceClose :: rest)) =
      .ok (trees, closing.token .braceClose :: rest)) :
    block (depth + 1) (blockTokens opening tokens closing ++ rest) =
      .ok ([blockTree opening trees closing], rest) := by
  rw [block, blockTokens, List.cons_append, List.append_assoc]
  exact branch_of (seq_token (seq_cons_eq_ok.mpr ⟨_, _, _, h, seq_token (seq_end rest), rfl⟩))

private theorem guarded_of {p : Production} {kind : Kind} {depth : Nat} {word : Mark}
    {condition : BoolPhrase} {tokens rest : List Token} {tree : Tree Node}
    (enough : 2 * condition.tokens.length ≤ depth + 1)
    (h : block depth (tokens ++ rest) = .ok ([tree], rest)) :
    branch p (seq [token kind, boolExpr depth, block depth])
        (word.token kind :: (condition.tokens ++ tokens) ++ rest) =
      .ok ([.node (.branch p) [word.leaf kind, condition.tree, tree]], rest) := by
  rw [List.cons_append, List.append_assoc]
  exact branch_of (seq_token (seq_of (boolExpr_complete condition enough)
    (seq_of h (seq_end rest))))

mutual

private theorem statement_complete : ∀ (s : StmtPhrase) {depth : Nat} {rest : List Token},
    2 * s.tokens.length ≤ depth → nextKind rest ≠ some .intOp →
      statement depth (s.tokens ++ rest) = .ok ([s.tree], rest)
  | s, 0, rest, enough, _ => by
    obtain ⟨m, kind, back, htokens, _⟩ := stmt_starts s
    simp [htokens] at enough
  | .print word opening value closing, depth + 1, rest, enough, _ => by
    simp only [StmtPhrase.tokens, List.length_cons, List.length_append, List.length_nil] at enough
    have hvalue : expr depth (value.tokens ++ (closing.token .parenClose :: rest)) = _ :=
      expr_complete value (by omega) (by simp [nextKind])
    rw [StmtPhrase.tree, statement, StmtPhrase.tokens, List.cons_append, List.cons_append,
      List.append_assoc]
    exact branch_of (branch_of (seq_token (seq_token (seq_of hvalue (seq_token (seq_end rest))))))
  | .assign name sign value, depth + 1, rest, enough, follow => by
    simp only [StmtPhrase.tokens, List.length_cons] at enough
    rw [StmtPhrase.tree, statement, StmtPhrase.tokens, List.cons_append, List.cons_append]
    exact branch_of (branch_of (seq_terminal (seq_token
      (seq_of (expr_complete value (by omega) follow) (seq_end rest)))))
  | .declare type name, depth + 1, rest, _, _ => by
    rw [StmtPhrase.tree, statement, StmtPhrase.tokens]
    exact branch_of (branch_of (seq_terminal (seq_terminal (seq_end rest))))
  | .whileDo word condition opening body closing, depth + 2, rest, enough, _ => by
    simp only [StmtPhrase.tokens, blockTokens, List.length_cons, List.length_append,
      List.length_nil] at enough
    rw [StmtPhrase.tree, statement, StmtPhrase.tokens]
    exact branch_of (guarded_of (by omega)
      (block_of (statementList_complete body (by omega) (nextKind_cons closing _ rest))))
  | .ifThen word condition opening body closing, depth + 2, rest, enough, _ => by
    simp only [StmtPhrase.tokens, blockTokens, List.length_cons, List.length_append,
      List.length_nil] at enough
    rw [StmtPhrase.tree, statement, StmtPhrase.tokens]
    exact branch_of (guarded_of (by omega)
      (block_of (statementList_complete body (by omega) (nextKind_cons closing _ rest))))
  | .block opening body closing, depth + 2, rest, enough, _ => by
    simp only [StmtPhrase.tokens, blockTokens, List.length_cons, List.length_append,
      List.length_nil] at enough
    rw [StmtPhrase.tree, statement, StmtPhrase.tokens]
    exact branch_of
      (block_of (statementList_complete body (by omega) (nextKind_cons closing _ rest)))
  | .whileDo word condition opening body closing, 1, _, enough, _
  | .ifThen word condition opening body closing, 1, _, enough, _
  | .block opening body closing, 1, _, enough, _ => by
    simp [StmtPhrase.tokens, blockTokens] at enough
    omega

private theorem statementList_complete : ∀ (ss : List StmtPhrase) {depth : Nat} {rest : List Token},
    2 * (StmtPhrase.allTokens ss).length + 1 ≤ depth → nextKind rest = some .braceClose →
      statementList depth (StmtPhrase.allTokens ss ++ rest) = .ok (StmtPhrase.trees ss, rest)
  | _, 0, _, enough, _ => by omega
  | [], depth + 1, rest, _, follow => by
    rw [statementList, StmtPhrase.allTokens, List.nil_append]
    dsimp only
    rw [follow]
    rfl
  | s :: ss, depth + 1, rest, enough, follow => by
    obtain ⟨m, kind, back, htokens, hkind, _⟩ := stmt_starts s
    have hpos : 0 < s.tokens.length := by simp [htokens]
    rw [StmtPhrase.allTokens, List.length_append] at enough
    have hnext : nextKind (s.tokens ++ (StmtPhrase.allTokens ss ++ rest)) = some kind := by
      simp [htokens, nextKind]
    have hread : branch .statementList (seq [statement depth, statementList depth])
        (s.tokens ++ (StmtPhrase.allTokens ss ++ rest)) =
          .ok (StmtPhrase.trees (s :: ss), rest) := by
      rw [StmtPhrase.trees]
      refine branch_of (seq_of (statement_complete s (by omega) (follow_stmts ss follow)) ?_)
      refine seq_cons_eq_ok.mpr ⟨_, _, [], statementList_complete ss (by omega) follow, rfl, ?_⟩
      exact (List.append_nil _).symm
    rw [statementList, StmtPhrase.allTokens, List.append_assoc]
    dsimp only
    rw [hnext]
    split
    · next h => cases h
    · next h => exact absurd (Option.some.inj h) hkind
    · exact hread

end

/-- A program is read back from its tokens, to any depth that is enough for its statements. -/
theorem programTo_complete (p : ProgramPhrase) {depth : Nat} (rest : List Token)
    (enough : 2 * (StmtPhrase.allTokens p.body).length + 1 ≤ depth) :
    programTo (depth + 1) (p.tokens ++ rest) = .ok ([p.tree], rest) := by
  have hlist : statementList depth (StmtPhrase.allTokens p.body ++
      (p.closing.token .braceClose :: (p.sentinel.token .eof :: rest))) = _ :=
    statementList_complete p.body enough (nextKind_cons p.closing .braceClose _)
  rw [ProgramPhrase.tokens, List.append_assoc]
  exact branch_of (seq_of (block_of hlist) (seq_token (seq_end rest)))

/-- Every program is read back from its tokens. -/
theorem program_complete (p : ProgramPhrase) (rest : List Token) :
    program (p.tokens ++ rest) = .ok ([p.tree], rest) := by
  refine programTo_complete p rest ?_
  simp only [ProgramPhrase.tokens, blockTokens, List.length_append, List.length_cons,
    List.length_nil]
  omega

end Derivation

/-- A parse succeeds with the trees that are read as a program. -/
theorem parse_eq_ok {tokens : List Token} {cst : Forest Node} :
    (parse tokens).result = .ok cst ↔ ∃ rest, Derivation.program tokens = .ok (cst, rest) := by
  simp only [parse, parsePrograms, Session.programsOf, Session.program]
  cases h : Derivation.program tokens with
  | error failure => simp [Session.report]
  | ok result =>
    obtain ⟨trees, rest⟩ := result
    simp [Session.report]

/-- Of the tokens of a scan only the last can be the sentinel. -/
theorem Scan.eof_last {quoted : Bool} {held : Nat} {p : Position} {chars : List Char}
    {front back : List Token} {t : Token}
    (h : (Scan.ofChars quoted held p chars).tokens = front ++ t :: back) (ht : t.kind = .eof) :
    back = [] := by
  induction chars generalizing quoted held p front with
  | nil =>
    rw [Scan.ofChars] at h
    simp at h
  | cons c rest ih =>
    cases held with
    | succ n =>
      rw [Scan.ofChars] at h
      exact ih h
    | zero =>
      rw [Scan.ofChars] at h
      split at h
      · exact ih h
      · simp at h
      · next lexeme kind quoted' _ =>
        dsimp only at h
        split at h
        · cases front with
          | nil => exact (List.cons.inj h).2.symm
          | cons u front => simp at h
        · next hkind =>
          cases front with
          | nil =>
            obtain rfl := (List.cons.inj h).1
            exact absurd ht hkind
          | cons u front => exact ih (List.cons.inj h).2

/-- A program that tokens of a scan start with is all of them. -/
theorem ProgramPhrase.scan_eq {p : ProgramPhrase} {source : String} {rest : List Token}
    (h : (Scan.ofSource source).result = .ok (p.tokens ++ rest)) : rest = [] := by
  have htokens : (Scan.ofSource source).tokens = p.tokens ++ rest := by
    unfold Scan.result at h
    split at h
    · cases h
    · exact Except.ok.inj h
  rw [ProgramPhrase.tokens, List.append_assoc] at htokens
  exact Scan.eof_last htokens rfl

/-- A parse succeeds exactly if some tokens, from the first on, are derivable as a program. For all
such tokens the result is their derivation tree, whose leaves they are; and if the tokens come from
a scan, such tokens are all of them. -/
theorem parse_accepts_grammar (tokens : List Token) :
    ((∃ cst, (parse tokens).result = .ok cst) ↔
      ∃ front, front <+: tokens ∧ Derives [.part .program] (front.map Token.kind)) ∧
    (∀ front, front <+: tokens → Derives [.part .program] (front.map Token.kind) →
      ∃ tree, (parse tokens).result = .ok [tree] ∧ tree.label = .branch .program ∧
        DerivationForest [.part .program] [tree] front ∧ Forest.tokens [tree] = front) ∧
    ∀ source, (Scan.ofSource source).result = .ok tokens → ∀ front, front <+: tokens →
      Derives [.part .program] (front.map Token.kind) → front = tokens := by
  refine ⟨⟨?_, ?_⟩, ?_, ?_⟩
  · rintro ⟨cst, h⟩
    obtain ⟨rest, hprogram⟩ := parse_eq_ok.mp h
    obtain ⟨p, rfl, rfl⟩ := Derivation.program_sound hprogram
    exact ⟨p.tokens, List.prefix_append _ _, derives_program_iff.mpr ⟨p, rfl⟩⟩
  · rintro ⟨front, ⟨rest, rfl⟩, hderives⟩
    obtain ⟨p, rfl⟩ := derives_program_iff.mp hderives
    exact ⟨[p.tree], parse_eq_ok.mpr ⟨rest, Derivation.program_complete p rest⟩⟩
  · rintro front ⟨rest, rfl⟩ hderives
    obtain ⟨p, rfl⟩ := derives_program_iff.mp hderives
    exact ⟨p.tree, parse_eq_ok.mpr ⟨rest, Derivation.program_complete p rest⟩, rfl, p.derivation,
      p.derivation.leaves⟩
  · rintro source hscan front ⟨rest, rfl⟩ hderives
    obtain ⟨p, rfl⟩ := derives_program_iff.mp hderives
    rw [ProgramPhrase.scan_eq hscan, List.append_nil]

/-- The tokens of a program that prints the sum of a number and a variable. -/
def printedSum : List Token :=
  [⟨"\x7b", .braceOpen, ⟨1, 1⟩⟩, ⟨"print", .printWord, ⟨1, 2⟩⟩, ⟨"(", .parenOpen, ⟨1, 7⟩⟩,
   ⟨"1", .digit, ⟨1, 8⟩⟩, ⟨"+", .intOp, ⟨1, 9⟩⟩, ⟨"a", .identifier, ⟨1, 10⟩⟩,
   ⟨")", .parenClose, ⟨1, 11⟩⟩, ⟨"\x7d", .braceClose, ⟨1, 12⟩⟩, ⟨"$", .eof, ⟨1, 13⟩⟩]

/-- Of a program with a statement and an expression, and a brace after it, just the program is
read. -/
theorem parse_accepts_grammar_rest : ∃ tree,
    (parse (printedSum ++ [⟨"\x7d", .braceClose, ⟨1, 14⟩⟩])).result = .ok [tree] ∧
      tree.label = .branch .program ∧ DerivationForest [.part .program] [tree] printedSum ∧
        Forest.tokens [tree] = printedSum := by
  have hsum : Derives [.part .intExpr] [.digit, .intOp, .identifier] :=
    .part .sum (.part .digit (.kind .nil) (.part .intOp (.kind .nil)
      (.part .naming (.part .name (.kind .nil) .nil) .nil))) .nil
  have hprint : Derives [.part .printStatement]
      [.printWord, .parenOpen, .digit, .intOp, .identifier, .parenClose] :=
    .part .printStatement (.kind (.kind (.part .intExpr hsum (.kind .nil)))) .nil
  have hderives : Derives [.part .program] (printedSum.map Token.kind) :=
    .part .program (.part .block (.kind (.part .moreStatements
      (.part .printing hprint (.part .noStatement .nil .nil)) (.kind .nil))) (.kind .nil)) .nil
  exact (parse_accepts_grammar _).2.1 printedSum (List.prefix_append _ _) hderives

end OnePage
