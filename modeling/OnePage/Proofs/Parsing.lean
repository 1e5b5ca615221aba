import OnePage.Proofs.Phrase

/-!
# Parsers read phrases

Each parser is described by the phrases it reads: what it accepts is the tokens of a phrase, with
the phrase's tree, and it leaves the tokens after it.
-/

namespace OnePage

namespace Parser

variable {tokens rest : List Token} {trees : Forest Node}

private theorem seq_nil_eq_ok : seq [] tokens = .ok (trees, rest) ↔ trees = [] ∧ rest = tokens := by
  constructor
  · intro h
    cases h
    exact ⟨rfl, rfl⟩
  · rintro ⟨rfl, rfl⟩
    rfl

/-- A sequence reads what its parts read, one after the other. -/
theorem seq_cons_eq_ok {first : Parser} {others : List Parser} :
    seq (first :: others) tokens = .ok (trees, rest) ↔ ∃ front mid back,
      first tokens = .ok (front, mid) ∧ seq others mid = .ok (back, rest) ∧
        trees = front ++ back := by
  rw [seq]
  dsimp only
  constructor
  · intro h
    split at h
    · cases h
    · next front mid hfirst =>
      split at h
      · cases h
      · next back last hothers =>
        cases h
        exact ⟨front, mid, back, hfirst, hothers, rfl⟩
  · rintro ⟨front, mid, back, hfirst, hothers, rfl⟩
    rw [hfirst]
    dsimp only
    rw [hothers]

/-- A branch is read just if its children are, and then is a node above them. -/
theorem branch_eq_ok {p : Production} {children : Parser} :
    branch p children tokens = .ok (trees, rest) ↔ ∃ inner,
      children tokens = .ok (inner, rest) ∧ trees = [.node (.branch p) inner] := by
  rw [branch]
  constructor
  · intro h
    split at h
    · cases h
    · next inner last hchildren =>
      cases h
      exact ⟨inner, hchildren, rfl⟩
  · rintro ⟨inner, hchildren, rfl⟩
    rw [hchildren]

/-- A token is read just if it is next, and then is a leaf. -/
theorem token_eq_ok {kind : Kind} : token kind tokens = .ok (trees, rest) ↔
    ∃ m : Mark, tokens = m.token kind :: rest ∧ trees = [m.leaf kind] := by
  constructor
  · intro h
    cases tokens with
    | nil => cases h
    | cons t tokens =>
      rw [token] at h
      split at h
      · next hkind =>
        cases h
        obtain ⟨m, hm⟩ := Mark.exists_token t
        rw [hkind] at hm
        exact ⟨m, by rw [← hm], by rw [Mark.leaf, ← hm]⟩
      · cases h
  · rintro ⟨m, rfl, rfl⟩
    rw [token, if_pos (m.kind_token kind)]
    rfl

/-- A terminal is read just if its token is next, and then is a node above that token. -/
theorem terminal_eq_ok {p : Production} {kind : Kind} :
    terminal p kind tokens = .ok (trees, rest) ↔
      ∃ m : Mark, tokens = m.token kind :: rest ∧ trees = [m.wrapped p kind] := by
  rw [terminal, branch_eq_ok]
  constructor
  · rintro ⟨inner, hinner, rfl⟩
    obtain ⟨m, htokens, rfl⟩ := token_eq_ok.mp hinner
    exact ⟨m, htokens, rfl⟩
  · rintro ⟨m, htokens, rfl⟩
    exact ⟨[m.leaf kind], token_eq_ok.mpr ⟨m, htokens, rfl⟩, rfl⟩

/-- A sequence that starts with a token reads that token. -/
theorem seq_token_eq_ok {kind : Kind} {others : List Parser} :
    seq (token kind :: others) tokens = .ok (trees, rest) ↔ ∃ (m : Mark) (mid : List Token)
      (back : Forest Node), tokens = m.token kind :: mid ∧ seq others mid = .ok (back, rest) ∧
        trees = m.leaf kind :: back := by
  rw [seq_cons_eq_ok]
  constructor
  · rintro ⟨front, mid, back, hfirst, hothers, rfl⟩
    obtain ⟨m, rfl, rfl⟩ := token_eq_ok.mp hfirst
    exact ⟨m, mid, back, rfl, hothers, rfl⟩
  · rintro ⟨m, mid, back, rfl, hothers, rfl⟩
    exact ⟨_, mid, back, token_eq_ok.mpr ⟨m, rfl, rfl⟩, hothers, rfl⟩

/-- A sequence that starts with a terminal is read just if its token is next and the others
follow. -/
theorem seq_terminal_eq_ok {p : Production} {kind : Kind} {others : List Parser} :
    seq (terminal p kind :: others) tokens = .ok (trees, rest) ↔ ∃ (m : Mark) (mid : List Token)
      (back : Forest Node), tokens = m.token kind :: mid ∧ seq others mid = .ok (back, rest) ∧
        trees = m.wrapped p kind :: back := by
  rw [seq_cons_eq_ok]
  constructor
  · rintro ⟨front, mid, back, hfirst, hothers, rfl⟩
    obtain ⟨m, rfl, rfl⟩ := terminal_eq_ok.mp hfirst
    exact ⟨m, mid, back, rfl, hothers, rfl⟩
  · rintro ⟨m, mid, back, rfl, hothers, rfl⟩
    exact ⟨_, mid, back, terminal_eq_ok.mpr ⟨m, rfl, rfl⟩, hothers, rfl⟩

/-- What is unexpected is not read. -/
theorem unexpected_ne_ok {expected : String} :
    unexpected expected tokens ≠ .ok (trees, rest) := by
  cases tokens <;> exact nofun

end Parser

namespace Derivation

open OnePage.Parser

/-! ### What parsers accept -/

variable {tokens rest : List Token} {trees : Forest Node}

/-- Tokens of one kind are the tokens of marks. -/
theorem takeWhile_kind (kind : Kind) (tokens : List Token) :
    ∃ ms : List Mark, tokens.takeWhile (·.kind == kind) = ms.map (·.token kind) := by
  induction tokens with
  | nil => exact ⟨[], rfl⟩
  | cons t tokens ih =>
    by_cases h : t.kind = kind
    · obtain ⟨ms, hms⟩ := ih
      obtain ⟨m, hm⟩ := Mark.exists_token t
      rw [h] at hm
      exact ⟨m :: ms, by rw [List.takeWhile_cons_of_pos (by simpa using h), hms, List.map_cons,
        ← hm]⟩
    · exact ⟨[], by rw [List.takeWhile_cons_of_neg (by simpa using h)]; rfl⟩

/-- If a kind is next, a token of that kind is. -/
theorem nextKind_eq_some {kind : Kind} (h : nextKind tokens = some kind) :
    ∃ (m : Mark) (back : List Token), tokens = m.token kind :: back := by
  cases tokens with
  | nil => cases h
  | cons t back =>
    obtain ⟨m, hm⟩ := Mark.exists_token t
    rw [show t.kind = kind from Option.some.inj h] at hm
    exact ⟨m, back, by rw [← hm]⟩

private theorem charList_sound (h : charList tokens = .ok (trees, rest)) :
    ∃ chars : List Mark, tokens = chars.map (·.token .char) ++ rest ∧ trees = charTrees chars := by
  unfold charList at h
  split at h
  · next hchar =>
    obtain ⟨inner, hinner, rfl⟩ := branch_eq_ok.mp h
    obtain ⟨chars, hchars⟩ := takeWhile_kind .char tokens
    cases hinner
    refine ⟨chars, by rw [← hchars, List.takeWhile_append_dropWhile], ?_⟩
    obtain ⟨m, back, rfl⟩ := nextKind_eq_some hchar
    rw [hchars, List.map_map]
    cases chars with
    | nil => simp at hchars
    | cons c chars => rfl
  · cases h
    exact ⟨[], rfl, rfl⟩

private theorem stringExpr_sound (h : stringExpr tokens = .ok (trees, rest)) :
    ∃ e : ExprPhrase, tokens = e.tokens ++ rest ∧ .node (.branch .expr) trees = e.tree := by
  obtain ⟨_, s₀, rfl⟩ := branch_eq_ok.mp h
  obtain ⟨opening, _, _, rfl, s₁, rfl⟩ := seq_token_eq_ok.mp s₀
  obtain ⟨_, _, _, hchars, s₂, rfl⟩ := seq_cons_eq_ok.mp s₁
  obtain ⟨chars, rfl, rfl⟩ := charList_sound hchars
  obtain ⟨closing, _, _, rfl, s₃, rfl⟩ := seq_token_eq_ok.mp s₂
  obtain ⟨rfl, rfl⟩ := seq_nil_eq_ok.mp s₃
  refine ⟨.text opening chars closing, ?_, ?_⟩
  · simp [ExprPhrase.tokens]
  · simp [ExprPhrase.tree]

-- The parsers call each other with a depth that is one less each time, so the recursion is on the
-- depth; how much of it is needed plays no part here.
mutual

/-- What is read as an expression is a phrase of that form, and its tree is the one that is
built. -/
theorem expr_sound : ∀ {depth : Nat} {tokens rest : List Token} {trees : Forest Node},
    expr depth tokens = .ok (trees, rest) →
      ∃ e : ExprPhrase, tokens = e.tokens ++ rest ∧ trees = [e.tree]
  | 0, _, _, _, h => absurd h unexpected_ne_ok
  | depth + 1, tokens, rest, trees, h => by
    rw [expr] at h
    obtain ⟨inner, hinner, rfl⟩ := branch_eq_ok.mp h
    split at hinner
    · obtain ⟨e, htokens, htree⟩ := intExpr_sound hinner
      exact ⟨e, htokens, by rw [htree]⟩
    · obtain ⟨e, htokens, htree⟩ := stringExpr_sound hinner
      exact ⟨e, htokens, by rw [htree]⟩
    · obtain ⟨b, htokens, rfl⟩ := boolExpr_sound hinner
      exact ⟨.bool b, by rw [ExprPhrase.tokens, htokens], by rw [ExprPhrase.tree]⟩
    · obtain ⟨b, htokens, rfl⟩ := boolExpr_sound hinner
      exact ⟨.bool b, by rw [ExprPhrase.tokens, htokens], by rw [ExprPhrase.tree]⟩
    · obtain ⟨m, rfl, rfl⟩ := terminal_eq_ok.mp hinner
      exact ⟨.name m, by rw [ExprPhrase.tokens]; rfl, by rw [ExprPhrase.tree]⟩
    · exact absurd hinner unexpected_ne_ok

private theorem intExpr_sound : ∀ {depth : Nat} {tokens rest : List Token} {trees : Forest Node},
    intExpr depth tokens = .ok (trees, rest) →
      ∃ e : ExprPhrase, tokens = e.tokens ++ rest ∧ .node (.branch .expr) trees = e.tree
  | 0, _, _, _, h => absurd h unexpected_ne_ok
  | depth + 1, tokens, rest, trees, h => by
    rw [intExpr] at h
    obtain ⟨_, s₀, rfl⟩ := branch_eq_ok.mp h
    obtain ⟨m, _, _, rfl, s₁, rfl⟩ := seq_terminal_eq_ok.mp s₀
    obtain ⟨_, _, _, hmore, s₂, rfl⟩ := seq_cons_eq_ok.mp s₁
    obtain ⟨rfl, rfl⟩ := seq_nil_eq_ok.mp s₂
    split at hmore
    · obtain ⟨plus, _, _, rfl, s₃, rfl⟩ := seq_terminal_eq_ok.mp hmore
      obtain ⟨_, _, _, hrest, s₄, rfl⟩ := seq_cons_eq_ok.mp s₃
      obtain ⟨e, rfl, rfl⟩ := expr_sound hrest
      obtain ⟨rfl, rfl⟩ := seq_nil_eq_ok.mp s₄
      exact ⟨.sum m plus e, by rw [ExprPhrase.tokens]; rfl, by rw [ExprPhrase.tree]; rfl⟩
    · cases hmore
      exact ⟨.digit m, by rw [ExprPhrase.tokens]; rfl, by rw [ExprPhrase.tree]; rfl⟩

/-- What is read as a truth value or comparison is a phrase of that form, with its tree. -/
theorem boolExpr_sound : ∀ {depth : Nat} {tokens rest : List Token} {trees : Forest Node},
    boolExpr depth tokens = .ok (trees, rest) →
      ∃ b : BoolPhrase, tokens = b.tokens ++ rest ∧ trees = [b.tree]
  | 0, _, _, _, h => absurd h unexpected_ne_ok
  | depth + 1, tokens, rest, trees, h => by
    rw [boolExpr] at h
    obtain ⟨inner, hinner, rfl⟩ := branch_eq_ok.mp h
    split at hinner
    · obtain ⟨m, rfl, rfl⟩ := terminal_eq_ok.mp hinner
      exact ⟨.value m, by rw [BoolPhrase.tokens]; rfl, by rw [BoolPhrase.tree]⟩
    · obtain ⟨opening, _, _, rfl, s₁, rfl⟩ := seq_token_eq_ok.mp hinner
      obtain ⟨_, _, _, hleft, s₂, rfl⟩ := seq_cons_eq_ok.mp s₁
      obtain ⟨left, rfl, rfl⟩ := expr_sound hleft
      obtain ⟨operator, _, _, rfl, s₃, rfl⟩ := seq_terminal_eq_ok.mp s₂
      obtain ⟨_, _, _, hright, s₄, rfl⟩ := seq_cons_eq_ok.mp s₃
      obtain ⟨right, rfl, rfl⟩ := expr_sound hright
      obtain ⟨closing, _, _, rfl, s₅, rfl⟩ := seq_token_eq_ok.mp s₄
      obtain ⟨rfl, rfl⟩ := seq_nil_eq_ok.mp s₅
      refine ⟨.compare opening left operator right closing, ?_, ?_⟩
      · simp [BoolPhrase.tokens]
      · simp [BoolPhrase.tree]

end

private theorem printStatement_sound {depth : Nat}
    (h : printStatement depth tokens = .ok (trees, rest)) :
    ∃ s : StmtPhrase, tokens = s.tokens ++ rest ∧ .node (.branch .statement) trees = s.tree := by
  obtain ⟨_, s₀, rfl⟩ := branch_eq_ok.mp h
  obtain ⟨word, _, _, rfl, s₁, rfl⟩ := seq_token_eq_ok.mp s₀
  obtain ⟨opening, _, _, rfl, s₂, rfl⟩ := seq_token_eq_ok.mp s₁
  obtain ⟨_, _, _, hvalue, s₃, rfl⟩ := seq_cons_eq_ok.mp s₂
  obtain ⟨value, rfl, rfl⟩ := expr_sound hvalue
  obtain ⟨closing, _, _, rfl, s₄, rfl⟩ := seq_token_eq_ok.mp s₃
  obtain ⟨rfl, rfl⟩ := seq_nil_eq_ok.mp s₄
  refine ⟨.print word opening value closing, ?_, ?_⟩
  · simp [StmtPhrase.tokens]
  · simp [StmtPhrase.tree]

private theorem assignmentStatement_sound {depth : Nat}
    (h : assignmentStatement depth tokens = .ok (trees, rest)) :
    ∃ s : StmtPhrase, tokens = s.tokens ++ rest ∧ .node (.branch .statement) trees = s.tree := by
  obtain ⟨_, s₀, rfl⟩ := branch_eq_ok.mp h
  obtain ⟨name, _, _, rfl, s₁, rfl⟩ := seq_terminal_eq_ok.mp s₀
  obtain ⟨sign, _, _, rfl, s₂, rfl⟩ := seq_token_eq_ok.mp s₁
  obtain ⟨_, _, _, hvalue, s₃, rfl⟩ := seq_cons_eq_ok.mp s₂
  obtain ⟨value, rfl, rfl⟩ := expr_sound hvalue
  obtain ⟨rfl, rfl⟩ := seq_nil_eq_ok.mp s₃
  refine ⟨.assign name sign value, ?_, ?_⟩
  · simp [StmtPhrase.tokens]
  · simp [StmtPhrase.tree]

private theorem varDecl_sound (h : varDecl tokens = .ok (trees, rest)) :
    ∃ s : StmtPhrase, tokens = s.tokens ++ rest ∧ .node (.branch .statement) trees = s.tree := by
  obtain ⟨_, s₀, rfl⟩ := branch_eq_ok.mp h
  obtain ⟨type, _, _, rfl, s₁, rfl⟩ := seq_terminal_eq_ok.mp s₀
  obtain ⟨name, _, _, rfl, s₂, rfl⟩ := seq_terminal_eq_ok.mp s₁
  obtain ⟨rfl, rfl⟩ := seq_nil_eq_ok.mp s₂
  refine ⟨.declare type name, ?_, ?_⟩
  · simp [StmtPhrase.tokens]
  · simp [StmtPhrase.tree]

/-- A word, a condition and a block in sequence. -/
theorem guarded_sound {p : Production} {kind : Kind} {depth : Nat}
    (sound : ∀ {tokens rest : List Token} {trees : Forest Node},
      block depth tokens = .ok (trees, rest) → ∃ opening body closing,
        tokens = blockTokens opening (StmtPhrase.allTokens body) closing ++ rest ∧
          trees = [blockTree opening (StmtPhrase.trees body) closing])
    (h : branch p (seq [token kind, boolExpr depth, block depth]) tokens = .ok (trees, rest)) :
    ∃ word condition opening body closing,
      tokens = word.token kind :: (BoolPhrase.tokens condition ++
        (blockTokens opening (StmtPhrase.allTokens body) closing ++ rest)) ∧
      trees = [.node (.branch p) [Mark.leaf word kind, condition.tree,
        blockTree opening (StmtPhrase.trees body) closing]] := by
  obtain ⟨_, s₀, rfl⟩ := branch_eq_ok.mp h
  obtain ⟨word, _, _, rfl, s₁, rfl⟩ := seq_token_eq_ok.mp s₀
  obtain ⟨_, _, _, hcondition, s₂, rfl⟩ := seq_cons_eq_ok.mp s₁
  obtain ⟨condition, rfl, rfl⟩ := boolExpr_sound hcondition
  obtain ⟨_, _, _, hblock, s₃, rfl⟩ := seq_cons_eq_ok.mp s₂
  obtain ⟨opening, body, closing, rfl, rfl⟩ := sound hblock
  obtain ⟨rfl, rfl⟩ := seq_nil_eq_ok.mp s₃
  exact ⟨word, condition, opening, body, closing, rfl, rfl⟩

mutual

private theorem block_sound : ∀ {depth : Nat} {tokens rest : List Token} {trees : Forest Node},
    block depth tokens = .ok (trees, rest) → ∃ opening body closing,
      tokens = blockTokens opening (StmtPhrase.allTokens body) closing ++ rest ∧
        trees = [blockTree opening (StmtPhrase.trees body) closing]
  | 0, _, _, _, h => absurd h unexpected_ne_ok
  | depth + 1, tokens, rest, trees, h => by
    rw [block] at h
    obtain ⟨_, s₀, rfl⟩ := branch_eq_ok.mp h
    obtain ⟨opening, _, _, rfl, s₁, rfl⟩ := seq_token_eq_ok.mp s₀
    obtain ⟨_, _, _, hbody, s₂, rfl⟩ := seq_cons_eq_ok.mp s₁
    obtain ⟨body, rfl, rfl⟩ := statementList_sound hbody
    obtain ⟨closing, _, _, rfl, s₃, rfl⟩ := seq_token_eq_ok.mp s₂
    obtain ⟨rfl, rfl⟩ := seq_nil_eq_ok.mp s₃
    exact ⟨opening, body, closing, by simp [blockTokens], by simp [blockTree]⟩

private theorem statementList_sound :
    ∀ {depth : Nat} {tokens rest : List Token} {trees : Forest Node},
    statementList depth tokens = .ok (trees, rest) → ∃ ss : List StmtPhrase,
      tokens = StmtPhrase.allTokens ss ++ rest ∧ trees = StmtPhrase.trees ss
  | 0, _, _, _, h => absurd h unexpected_ne_ok
  | depth + 1, tokens, rest, trees, h => by
    rw [statementList] at h
    dsimp only at h
    split at h
    · cases h
      exact ⟨[], rfl, rfl⟩
    · cases h
      exact ⟨[], rfl, rfl⟩
    · obtain ⟨_, s₀, rfl⟩ := branch_eq_ok.mp h
      obtain ⟨_, _, _, hfirst, s₁, rfl⟩ := seq_cons_eq_ok.mp s₀
      obtain ⟨s, rfl, rfl⟩ := statement_sound hfirst
      obtain ⟨_, _, _, hothers, s₂, rfl⟩ := seq_cons_eq_ok.mp s₁
      obtain ⟨ss, rfl, rfl⟩ := statementList_sound hothers
      obtain ⟨rfl, rfl⟩ := seq_nil_eq_ok.mp s₂
      exact ⟨s :: ss, by simp [StmtPhrase.allTokens], by simp [StmtPhrase.trees]⟩

/-- What is read as a statement is a phrase of that form, with its tree. -/
theorem statement_sound : ∀ {depth : Nat} {tokens rest : List Token} {trees : Forest Node},
    statement depth tokens = .ok (trees, rest) →
      ∃ s : StmtPhrase, tokens = s.tokens ++ rest ∧ trees = [s.tree]
  | 0, _, _, _, h => absurd h unexpected_ne_ok
  | depth + 1, tokens, rest, trees, h => by
    rw [statement] at h
    obtain ⟨inner, hinner, rfl⟩ := branch_eq_ok.mp h
    split at hinner
    · obtain ⟨s, htokens, htree⟩ := printStatement_sound hinner
      exact ⟨s, htokens, by rw [htree]⟩
    · obtain ⟨s, htokens, htree⟩ := assignmentStatement_sound hinner
      exact ⟨s, htokens, by rw [htree]⟩
    · obtain ⟨s, htokens, htree⟩ := varDecl_sound hinner
      exact ⟨s, htokens, by rw [htree]⟩
    · obtain ⟨word, condition, opening, body, closing, rfl, rfl⟩ :=
        guarded_sound block_sound hinner
      exact ⟨.whileDo word condition opening body closing, by simp [StmtPhrase.tokens],
        by simp [StmtPhrase.tree]⟩
    · obtain ⟨word, condition, opening, body, closing, rfl, rfl⟩ :=
        guarded_sound block_sound hinner
      exact ⟨.ifThen word condition opening body closing, by simp [StmtPhrase.tokens],
        by simp [StmtPhrase.tree]⟩
    · obtain ⟨opening, body, closing, rfl, rfl⟩ := block_sound hinner
      exact ⟨.block opening body closing, by simp [StmtPhrase.tokens],
        by simp [StmtPhrase.tree]⟩
    · exact absurd hinner unexpected_ne_ok

end

/-- What is read as a program is the tokens of one, with its tree. -/
theorem program_sound (h : program tokens = .ok (trees, rest)) :
    ∃ p : ProgramPhrase, tokens = p.tokens ++ rest ∧ trees = [p.tree] := by
  obtain ⟨_, s₀, rfl⟩ := branch_eq_ok.mp h
  obtain ⟨_, _, _, hblock, s₁, rfl⟩ := seq_cons_eq_ok.mp s₀
  obtain ⟨opening, body, closing, rfl, rfl⟩ := block_sound hblock
  obtain ⟨sentinel, _, _, rfl, s₂, rfl⟩ := seq_token_eq_ok.mp s₁
  obtain ⟨rfl, rfl⟩ := seq_nil_eq_ok.mp s₂
  exact ⟨⟨opening, body, closing, sentinel⟩, by simp [ProgramPhrase.tokens],
    by simp [ProgramPhrase.tree]⟩

end Derivation

end OnePage
