import OnePage.Proofs.Grammar

/-!
# Phrases

The phrases of the language by their form, each with the lexemes and positions of its tokens. A
phrase is one way to write something: it has one concrete tree and one sequence of tokens. A
sequence of kinds is derivable in the grammar exactly if it is that of a phrase.
-/

namespace OnePage

/-- What a token shows, without its kind. -/
structure Mark where
  lexeme : String
  position : Position
  deriving DecidableEq

namespace Mark

/-- The token of a kind that shows a mark. -/
def token (m : Mark) (kind : Kind) : Token := { lexeme := m.lexeme, kind, position := m.position }

/-- The leaf of a token. -/
def leaf (m : Mark) (kind : Kind) : Tree Node := .leaf (.leaf (m.token kind))

/-- The node of a nonterminal that stands for one token. -/
def wrapped (m : Mark) (production : Production) (kind : Kind) : Tree Node :=
  .node (.branch production) [m.leaf kind]

/-- A token made with a kind has that kind. -/
@[simp] theorem kind_token (m : Mark) (kind : Kind) : (m.token kind).kind = kind := rfl

/-- Every token shows a mark. -/
theorem exists_token (t : Token) : ∃ m : Mark, t = m.token t.kind :=
  ⟨{ lexeme := t.lexeme, position := t.position }, rfl⟩

end Mark

mutual

/-- An expression. -/
inductive ExprPhrase where
  | digit (digit : Mark)
  | sum (digit plus : Mark) (rest : ExprPhrase)
  | text (opening : Mark) (chars : List Mark) (closing : Mark)
  | bool (value : BoolPhrase)
  | name (name : Mark)

/-- A truth value or a comparison. -/
inductive BoolPhrase where
  | value (value : Mark)
  | compare (opening : Mark) (left : ExprPhrase) (operator : Mark) (right : ExprPhrase)
    (closing : Mark)

end

/-- A statement. -/
inductive StmtPhrase where
  | print (word opening : Mark) (value : ExprPhrase) (closing : Mark)
  | assign (name sign : Mark) (value : ExprPhrase)
  | declare (type name : Mark)
  | whileDo (word : Mark) (condition : BoolPhrase) (opening : Mark) (body : List StmtPhrase)
    (closing : Mark)
  | ifThen (word : Mark) (condition : BoolPhrase) (opening : Mark) (body : List StmtPhrase)
    (closing : Mark)
  | block (opening : Mark) (body : List StmtPhrase) (closing : Mark)

/-- A program. -/
structure ProgramPhrase where
  opening : Mark
  body : List StmtPhrase
  closing : Mark
  sentinel : Mark

/-- The node of the characters between two quotes, if there are any. -/
def charTrees : List Mark → Forest Node
  | [] => []
  | m :: ms => [.node (.branch .charList) ((m :: ms).map (·.leaf .char))]

mutual

/-- The concrete tree of an expression. -/
def ExprPhrase.tree : ExprPhrase → Tree Node
  | .digit m => .node (.branch .expr) [.node (.branch .intExpr) [m.wrapped .digit .digit]]
  | .sum m plus rest => .node (.branch .expr) [.node (.branch .intExpr)
      [m.wrapped .digit .digit, plus.wrapped .intOp .intOp, rest.tree]]
  | .text opening chars closing => .node (.branch .expr) [.node (.branch .stringExpr)
      (opening.leaf .quote :: (charTrees chars ++ [closing.leaf .quote]))]
  | .bool value => .node (.branch .expr) [value.tree]
  | .name m => .node (.branch .expr) [m.wrapped .name .identifier]

/-- The concrete tree of a truth value or a comparison. -/
def BoolPhrase.tree : BoolPhrase → Tree Node
  | .value m => .node (.branch .boolExpr) [m.wrapped .boolVal .boolVal]
  | .compare opening left operator right closing => .node (.branch .boolExpr)
      [opening.leaf .parenOpen, left.tree, operator.wrapped .boolOp .boolOp, right.tree,
        closing.leaf .parenClose]

end

mutual

/-- The tokens of an expression. -/
def ExprPhrase.tokens : ExprPhrase → List Token
  | .digit m => [m.token .digit]
  | .sum m plus rest => m.token .digit :: plus.token .intOp :: rest.tokens
  | .text opening chars closing =>
    opening.token .quote :: (chars.map (·.token .char) ++ [closing.token .quote])
  | .bool value => value.tokens
  | .name m => [m.token .identifier]

/-- The tokens of a truth value or a comparison. -/
def BoolPhrase.tokens : BoolPhrase → List Token
  | .value m => [m.token .boolVal]
  | .compare opening left operator right closing => opening.token .parenOpen ::
      (left.tokens ++ operator.token .boolOp :: (right.tokens ++ [closing.token .parenClose]))

end

/-- The tree of a block with the given statements. -/
def blockTree (opening : Mark) (body : Forest Node) (closing : Mark) : Tree Node :=
  .node (.branch .block) (opening.leaf .braceOpen :: (body ++ [closing.leaf .braceClose]))

/-- The tokens of a block with the given statements. -/
def blockTokens (opening : Mark) (body : List Token) (closing : Mark) : List Token :=
  opening.token .braceOpen :: (body ++ [closing.token .braceClose])

mutual

/-- The concrete tree of a statement. -/
def StmtPhrase.tree : StmtPhrase → Tree Node
  | .print word opening value closing => .node (.branch .statement)
      [.node (.branch .printStatement) [word.leaf .printWord, opening.leaf .parenOpen, value.tree,
        closing.leaf .parenClose]]
  | .assign name sign value => .node (.branch .statement)
      [.node (.branch .assignmentStatement) [name.wrapped .name .identifier, sign.leaf .assign,
        value.tree]]
  | .declare type name => .node (.branch .statement)
      [.node (.branch .varDecl) [type.wrapped .typeName .typeWord, name.wrapped .name .identifier]]
  | .whileDo word condition opening body closing => .node (.branch .statement)
      [.node (.branch .whileStatement) [word.leaf .whileWord, condition.tree,
        blockTree opening (StmtPhrase.trees body) closing]]
  | .ifThen word condition opening body closing => .node (.branch .statement)
      [.node (.branch .ifStatement) [word.leaf .ifWord, condition.tree,
        blockTree opening (StmtPhrase.trees body) closing]]
  | .block opening body closing => .node (.branch .statement)
      [blockTree opening (StmtPhrase.trees body) closing]

/-- The concrete tree of statements, if there are any. -/
def StmtPhrase.trees : List StmtPhrase → Forest Node
  | [] => []
  | s :: ss => [.node (.branch .statementList) (s.tree :: StmtPhrase.trees ss)]

end

mutual

/-- The tokens of a statement. -/
def StmtPhrase.tokens : StmtPhrase → List Token
  | .print word opening value closing => word.token .printWord :: opening.token .parenOpen ::
      (value.tokens ++ [closing.token .parenClose])
  | .assign name sign value => name.token .identifier :: sign.token .assign :: value.tokens
  | .declare type name => [type.token .typeWord, name.token .identifier]
  | .whileDo word condition opening body closing => word.token .whileWord ::
      (condition.tokens ++ blockTokens opening (StmtPhrase.allTokens body) closing)
  | .ifThen word condition opening body closing => word.token .ifWord ::
      (condition.tokens ++ blockTokens opening (StmtPhrase.allTokens body) closing)
  | .block opening body closing => blockTokens opening (StmtPhrase.allTokens body) closing

/-- The tokens of statements. -/
def StmtPhrase.allTokens : List StmtPhrase → List Token
  | [] => []
  | s :: ss => s.tokens ++ StmtPhrase.allTokens ss

end

/-- The concrete tree of a program. -/
def ProgramPhrase.tree (p : ProgramPhrase) : Tree Node :=
  .node (.branch .program)
    [blockTree p.opening (StmtPhrase.trees p.body) p.closing, p.sentinel.leaf .eof]

/-- The tokens of a program. -/
def ProgramPhrase.tokens (p : ProgramPhrase) : List Token :=
  blockTokens p.opening (StmtPhrase.allTokens p.body) p.closing ++ [p.sentinel.token .eof]

/-! ### Phrases are derived -/

/-- A rule with a derivation of its right-hand side derives its nonterminal. -/
theorem DerivationForest.rule {p : Production} {item : Item} {rhs : List Item}
    {children : Forest Node} {tokens : List Token} (rule : Rule p (item :: rhs))
    (h : DerivationForest (item :: rhs) children tokens) :
    DerivationForest [.part p] [.node (.branch p) children] tokens := by
  rw [← List.append_nil tokens]
  exact .branch rule (by simp) h .nil

/-- A token derives the kind it has. -/
theorem Mark.derivation (m : Mark) (kind : Kind) :
    DerivationForest [.kind kind] [m.leaf kind] [m.token kind] :=
  .token (t := m.token kind) .nil

private theorem Mark.derivation_wrapped (m : Mark) {p : Production} {kind : Kind}
    (rule : Rule p [.kind kind]) :
    DerivationForest [.part p] [m.wrapped p kind] [m.token kind] :=
  .rule rule (m.derivation kind)

/-- Characters one after the other derive a list of characters. -/
theorem derivation_charTrees (chars : List Mark) :
    DerivationForest [.part .charList] (charTrees chars) (chars.map (·.token .char)) := by
  have hall (ms : List Mark) : DerivationForest (List.replicate ms.length (.kind .char))
      (ms.map (·.leaf .char)) (ms.map (·.token .char)) := by
    induction ms with
    | nil => exact .nil
    | cons m ms ih => exact .token (t := m.token .char) ih
  cases chars with
  | nil => exact .empty (.characters 0) .nil
  | cons m ms => exact .rule (.characters (ms.length + 1)) (hall (m :: ms))

mutual

private theorem ExprPhrase.derivation : ∀ e : ExprPhrase,
    DerivationForest [.part .expr] [e.tree] e.tokens
  | .digit m => by
    rw [ExprPhrase.tree, ExprPhrase.tokens]
    exact .rule .intExpr (.rule .oneDigit (m.derivation_wrapped .digit))
  | .sum m plus rest => by
    rw [ExprPhrase.tree, ExprPhrase.tokens]
    exact .rule .intExpr (.rule .sum ((m.derivation_wrapped .digit).append
      ((plus.derivation_wrapped .intOp).append rest.derivation)))
  | .text opening chars closing => by
    rw [ExprPhrase.tree, ExprPhrase.tokens]
    exact .rule .stringExpr (.rule .text ((opening.derivation .quote).append
      ((derivation_charTrees chars).append (closing.derivation .quote))))
  | .bool value => by
    rw [ExprPhrase.tree, ExprPhrase.tokens]
    exact .rule .boolExpr value.derivation
  | .name m => by
    rw [ExprPhrase.tree, ExprPhrase.tokens]
    exact .rule .naming (m.derivation_wrapped .name)

private theorem BoolPhrase.derivation : ∀ b : BoolPhrase,
    DerivationForest [.part .boolExpr] [b.tree] b.tokens
  | .value m => by
    rw [BoolPhrase.tree, BoolPhrase.tokens]
    exact .rule .truth (m.derivation_wrapped .boolVal)
  | .compare opening left operator right closing => by
    rw [BoolPhrase.tree, BoolPhrase.tokens]
    exact .rule .comparison ((opening.derivation .parenOpen).append (left.derivation.append
      ((operator.derivation_wrapped .boolOp).append (right.derivation.append
        (closing.derivation .parenClose)))))

end

private theorem derivation_block (opening closing : Mark) {body : Forest Node} {tokens : List Token}
    (h : DerivationForest [.part .statementList] body tokens) :
    DerivationForest [.part .block] [blockTree opening body closing]
      (blockTokens opening tokens closing) :=
  .rule .block ((opening.derivation .braceOpen).append (h.append (closing.derivation .braceClose)))

mutual

private theorem StmtPhrase.derivation : ∀ s : StmtPhrase,
    DerivationForest [.part .statement] [s.tree] s.tokens
  | .print word opening value closing => by
    rw [StmtPhrase.tree, StmtPhrase.tokens]
    exact .rule .printing (.rule .printStatement ((word.derivation .printWord).append
      ((opening.derivation .parenOpen).append (value.derivation.append
        (closing.derivation .parenClose)))))
  | .assign name sign value => by
    rw [StmtPhrase.tree, StmtPhrase.tokens]
    exact .rule .assigning (.rule .assignmentStatement ((name.derivation_wrapped .name).append
      ((sign.derivation .assign).append value.derivation)))
  | .declare type name => by
    rw [StmtPhrase.tree, StmtPhrase.tokens]
    exact .rule .declaring (.rule .varDecl ((type.derivation_wrapped .typeName).append
      (name.derivation_wrapped .name)))
  | .whileDo word condition opening body closing => by
    rw [StmtPhrase.tree, StmtPhrase.tokens]
    exact .rule .looping (.rule .whileStatement ((word.derivation .whileWord).append
      (condition.derivation.append
        (derivation_block opening closing (StmtPhrase.derivation_trees body)))))
  | .ifThen word condition opening body closing => by
    rw [StmtPhrase.tree, StmtPhrase.tokens]
    exact .rule .choosing (.rule .ifStatement ((word.derivation .ifWord).append
      (condition.derivation.append
        (derivation_block opening closing (StmtPhrase.derivation_trees body)))))
  | .block opening body closing => by
    rw [StmtPhrase.tree, StmtPhrase.tokens]
    exact .rule .nesting (derivation_block opening closing (StmtPhrase.derivation_trees body))

private theorem StmtPhrase.derivation_trees : ∀ ss : List StmtPhrase,
    DerivationForest [.part .statementList] (StmtPhrase.trees ss) (StmtPhrase.allTokens ss)
  | [] => .empty .noStatement .nil
  | s :: ss => by
    rw [StmtPhrase.trees, StmtPhrase.allTokens]
    exact .rule .moreStatements (s.derivation.append (StmtPhrase.derivation_trees ss))

end

/-- The tree of a program derives it from its tokens. -/
theorem ProgramPhrase.derivation (p : ProgramPhrase) :
    DerivationForest [.part .program] [p.tree] p.tokens :=
  .rule .program ((derivation_block p.opening p.closing (StmtPhrase.derivation_trees p.body)).append
    (p.sentinel.derivation .eof))

/-! ### What is derivable is a phrase -/

/-- The tokens are those of a phrase of the nonterminal. -/
def Production.Reads : Production → List Token → Prop
  | .program, tokens => ∃ p : ProgramPhrase, tokens = p.tokens
  | .block, tokens => ∃ opening body closing,
      tokens = blockTokens opening (StmtPhrase.allTokens body) closing
  | .statementList, tokens => ∃ ss, tokens = StmtPhrase.allTokens ss
  | .statement, tokens | .printStatement, tokens | .assignmentStatement, tokens
  | .varDecl, tokens | .whileStatement, tokens | .ifStatement, tokens =>
    ∃ s : StmtPhrase, tokens = s.tokens
  | .expr, tokens | .intExpr, tokens | .stringExpr, tokens => ∃ e : ExprPhrase, tokens = e.tokens
  | .boolExpr, tokens => ∃ b : BoolPhrase, tokens = b.tokens
  | .charList, tokens => ∃ chars : List Mark, tokens = chars.map (·.token .char)
  | .name, tokens => ∃ m : Mark, tokens = [m.token .identifier]
  | .typeName, tokens => ∃ m : Mark, tokens = [m.token .typeWord]
  | .digit, tokens => ∃ m : Mark, tokens = [m.token .digit]
  | .boolOp, tokens => ∃ m : Mark, tokens = [m.token .boolOp]
  | .boolVal, tokens => ∃ m : Mark, tokens = [m.token .boolVal]
  | .intOp, tokens => ∃ m : Mark, tokens = [m.token .intOp]

/-- The tokens are those of one phrase for each item. -/
def ReadsAll : List Item → List Token → Prop
  | [], tokens => tokens = []
  | .kind k :: items, tokens => ∃ m back, tokens = Mark.token m k :: back ∧ ReadsAll items back
  | .part p :: items, tokens =>
    ∃ front back, tokens = front ++ back ∧ p.Reads front ∧ ReadsAll items back

private theorem reads_characters {count : Nat} {tokens : List Token}
    (h : ReadsAll (List.replicate count (.kind .char)) tokens) :
    Production.charList.Reads tokens := by
  induction count generalizing tokens with
  | zero => exact ⟨[], h⟩
  | succ count ih =>
    obtain ⟨m, back, rfl, hback⟩ := h
    obtain ⟨chars, rfl⟩ := ih hback
    exact ⟨m :: chars, rfl⟩

/-- Phrases put together as a rule says are a phrase of its nonterminal. -/
theorem reads_of_rule {p : Production} {rhs : List Item} {tokens : List Token} (rule : Rule p rhs)
    (h : ReadsAll rhs tokens) : p.Reads tokens := by
  cases rule with
  | program =>
    obtain ⟨_, _, rfl, ⟨opening, body, closing, rfl⟩, sentinel, _, rfl, rfl⟩ := h
    exact ⟨⟨opening, body, closing, sentinel⟩, rfl⟩
  | block =>
    obtain ⟨opening, _, rfl, _, _, rfl, ⟨body, rfl⟩, closing, _, rfl, rfl⟩ := h
    exact ⟨opening, body, closing, rfl⟩
  | moreStatements =>
    obtain ⟨_, _, rfl, ⟨s, rfl⟩, _, _, rfl, ⟨ss, rfl⟩, rfl⟩ := h
    exact ⟨s :: ss, by rw [List.append_nil, StmtPhrase.allTokens]⟩
  | noStatement => exact ⟨[], h⟩
  | printing | assigning | declaring | looping | choosing =>
    obtain ⟨_, _, rfl, ⟨s, rfl⟩, rfl⟩ := h
    exact ⟨s, List.append_nil _⟩
  | nesting =>
    obtain ⟨_, _, rfl, ⟨opening, body, closing, rfl⟩, rfl⟩ := h
    exact ⟨.block opening body closing, by rw [List.append_nil, StmtPhrase.tokens]⟩
  | printStatement =>
    obtain ⟨word, _, rfl, opening, _, rfl, _, _, rfl, ⟨value, rfl⟩, closing, _, rfl, rfl⟩ := h
    exact ⟨.print word opening value closing, by rw [StmtPhrase.tokens]⟩
  | assignmentStatement =>
    obtain ⟨_, _, rfl, ⟨name, rfl⟩, sign, _, rfl, _, _, rfl, ⟨value, rfl⟩, rfl⟩ := h
    exact ⟨.assign name sign value, by rw [List.append_nil, StmtPhrase.tokens]; rfl⟩
  | varDecl =>
    obtain ⟨_, _, rfl, ⟨type, rfl⟩, _, _, rfl, ⟨name, rfl⟩, rfl⟩ := h
    exact ⟨.declare type name, by rw [List.append_nil, StmtPhrase.tokens]; rfl⟩
  | whileStatement =>
    obtain ⟨word, _, rfl, _, _, rfl, ⟨condition, rfl⟩, _, _, rfl, ⟨opening, body, closing, rfl⟩,
      rfl⟩ := h
    exact ⟨.whileDo word condition opening body closing,
      by rw [List.append_nil, StmtPhrase.tokens]⟩
  | ifStatement =>
    obtain ⟨word, _, rfl, _, _, rfl, ⟨condition, rfl⟩, _, _, rfl, ⟨opening, body, closing, rfl⟩,
      rfl⟩ := h
    exact ⟨.ifThen word condition opening body closing,
      by rw [List.append_nil, StmtPhrase.tokens]⟩
  | intExpr | stringExpr =>
    obtain ⟨_, _, rfl, ⟨e, rfl⟩, rfl⟩ := h
    exact ⟨e, List.append_nil _⟩
  | boolExpr =>
    obtain ⟨_, _, rfl, ⟨value, rfl⟩, rfl⟩ := h
    exact ⟨.bool value, by rw [List.append_nil, ExprPhrase.tokens]⟩
  | naming =>
    obtain ⟨_, _, rfl, ⟨m, rfl⟩, rfl⟩ := h
    exact ⟨.name m, by rw [List.append_nil, ExprPhrase.tokens]⟩
  | oneDigit =>
    obtain ⟨_, _, rfl, ⟨m, rfl⟩, rfl⟩ := h
    exact ⟨.digit m, by rw [List.append_nil, ExprPhrase.tokens]⟩
  | sum =>
    obtain ⟨_, _, rfl, ⟨m, rfl⟩, _, _, rfl, ⟨plus, rfl⟩, _, _, rfl, ⟨rest, rfl⟩, rfl⟩ := h
    exact ⟨.sum m plus rest, by rw [List.append_nil, ExprPhrase.tokens]; rfl⟩
  | text =>
    obtain ⟨opening, _, rfl, _, _, rfl, ⟨chars, rfl⟩, closing, _, rfl, rfl⟩ := h
    exact ⟨.text opening chars closing, by rw [ExprPhrase.tokens]⟩
  | truth =>
    obtain ⟨_, _, rfl, ⟨m, rfl⟩, rfl⟩ := h
    exact ⟨.value m, by rw [List.append_nil, BoolPhrase.tokens]⟩
  | comparison =>
    obtain ⟨opening, _, rfl, _, _, rfl, ⟨left, rfl⟩, _, _, rfl, ⟨operator, rfl⟩, _, _, rfl,
      ⟨right, rfl⟩, closing, _, rfl, rfl⟩ := h
    exact ⟨.compare opening left operator right closing, by rw [BoolPhrase.tokens]; rfl⟩
  | characters count => exact reads_characters h
  | name | typeName | digit | boolOp | boolVal | intOp =>
    obtain ⟨m, _, rfl, rfl⟩ := h
    exact ⟨m, rfl⟩

/-- Tokens whose kinds are derivable are those of phrases. -/
theorem Derives.reads {items : List Item} {kinds : List Kind} (h : Derives items kinds)
    {tokens : List Token} (hkinds : tokens.map Token.kind = kinds) : ReadsAll items tokens := by
  induction h generalizing tokens with
  | nil => exact List.map_eq_nil_iff.mp hkinds
  | kind _ ih =>
    obtain ⟨t, back, rfl, rfl, hback⟩ := List.map_eq_cons_iff.mp hkinds
    obtain ⟨m, hm⟩ := Mark.exists_token t
    exact ⟨m, back, by rw [← hm], ih hback⟩
  | part rule _ _ ihc ih =>
    -- The tokens are cut where their kinds are.
    obtain ⟨front, back, rfl, hfront, hback⟩ := List.map_eq_append_iff.mp hkinds
    exact ⟨front, back, rfl, reads_of_rule rule (ihc hfront), ih hback⟩

/-- Tokens are derivable as a program exactly if they are those of a program. -/
theorem derives_program_iff {tokens : List Token} :
    Derives [.part .program] (tokens.map Token.kind) ↔ ∃ p : ProgramPhrase, tokens = p.tokens := by
  constructor
  · intro h
    obtain ⟨_, _, rfl, ⟨p, rfl⟩, rfl⟩ := h.reads rfl
    exact ⟨p, List.append_nil _⟩
  · rintro ⟨p, rfl⟩
    exact p.derivation.derives

end OnePage
