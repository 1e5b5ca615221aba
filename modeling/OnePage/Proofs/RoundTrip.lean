import OnePage.Proofs.Checking
import OnePage.Proofs.Writing

/-!
# Programs survive being written

Every program has chunks, in which it is written, and a tree. A well-formed program, written in any
way with blanks between its chunks, is scanned, parsed and analysed, and what is left of it is its
tree.
-/

namespace OnePage

/-! ### Chunks and trees of programs -/

mutual

/-- The chunks of an expression. -/
def Term.chunks : Term → List Chunk
  | .digit numeral => [.word numeral .digit]
  | .sum numeral rest => .word numeral .digit :: .word "+" .intOp :: rest.chunks
  | .text value => [.literal value]
  | .test condition => condition.chunks
  | .name name => [.word name .identifier]

/-- The chunks of a truth value or a comparison. -/
def Condition.chunks : Condition → List Chunk
  | .flag value => [.word (Stmt.flagWord value) .boolVal]
  | .compare left equal right => .word "(" .parenOpen ::
      (left.chunks ++ .word (compareSign equal) .boolOp ::
        (right.chunks ++ [.word ")" .parenClose]))

end

/-- Chunks in braces. -/
def Chunk.braced (chunks : List Chunk) : List Chunk :=
  .word "\x7b" .braceOpen :: (chunks ++ [.word "\x7d" .braceClose])

mutual

/-- The chunks of a statement. -/
def Command.chunks : Command → List Chunk
  | .print value => .word "print" .printWord :: .word "(" .parenOpen ::
      (value.chunks ++ [.word ")" .parenClose])
  | .assign name value => .word name .identifier :: .word "=" .assign :: value.chunks
  | .declare type name => [.word type.text .typeWord, .word name .identifier]
  | .whileDo condition body =>
    .word "while" .whileWord :: (condition.chunks ++ Chunk.braced (Command.allChunks body))
  | .ifThen condition body =>
    .word "if" .ifWord :: (condition.chunks ++ Chunk.braced (Command.allChunks body))
  | .block body => Chunk.braced (Command.allChunks body)

/-- The chunks of statements. -/
def Command.allChunks : List Command → List Chunk
  | [] => []
  | c :: cs => c.chunks ++ Command.allChunks cs

end

/-- A node that shows a token at no place. -/
def Node.token (lexeme : String) (kind : Kind) : Node :=
  .leaf { lexeme, kind, position := .nowhere }

mutual

/-- The tree of an expression: an operator stands above its two operands. -/
def Term.tree : Term → Tree Node
  | .digit numeral => .leaf (.token numeral .digit)
  | .sum numeral rest => .node (.token "+" .intOp) [.leaf (.token numeral .digit), rest.tree]
  | .text value => .leaf (.literal value .nowhere)
  | .test condition => condition.tree
  | .name name => .leaf (.token name .identifier)

/-- The tree of a truth value or a comparison. -/
def Condition.tree : Condition → Tree Node
  | .flag value => .leaf (.token (Stmt.flagWord value) .boolVal)
  | .compare left equal right =>
    .node (.token (compareSign equal) .boolOp) [left.tree, right.tree]

end

mutual

/-- The tree of a statement. -/
def Command.tree : Command → Tree Node
  | .print value => .node (.branch .printStatement) [value.tree]
  | .assign name value =>
    .node (.branch .assignmentStatement) [.leaf (.token name .identifier), value.tree]
  | .declare type name => .node (.branch .varDecl)
      [.leaf (.token type.text .typeWord), .leaf (.token name .identifier)]
  | .whileDo condition body => .node (.branch .whileStatement)
      [condition.tree, .node (.branch .block) (Command.trees body)]
  | .ifThen condition body => .node (.branch .ifStatement)
      [condition.tree, .node (.branch .block) (Command.trees body)]
  | .block body => .node (.branch .block) (Command.trees body)

/-- The trees of statements. -/
def Command.trees : List Command → Forest Node
  | [] => []
  | c :: cs => c.tree :: Command.trees cs

end

/-! ### Phrases for programs -/

/-- The tokens are those of the chunks, wherever they stand. -/
def Chunk.ShownBy (chunks : List Chunk) (tokens : List Token) : Prop :=
  tokens.map Token.word = chunks.flatMap Chunk.words

private theorem exists_mark {tokens : List Token} {lexeme : String} {kind : Kind}
    {words : List (String × Kind)} (h : tokens.map Token.word = (lexeme, kind) :: words) :
    ∃ (m : Mark) (rest : List Token), tokens = m.token kind :: rest ∧ m.lexeme = lexeme ∧
      rest.map Token.word = words := by
  obtain ⟨t, rest, rfl, ht, hrest⟩ := List.map_eq_cons_iff.mp h
  obtain ⟨m, hm⟩ := Mark.exists_token t
  rw [hm] at ht ⊢
  cases ht
  exact ⟨m, rest, rfl, rfl, hrest⟩

private theorem exists_marks {tokens : List Token} {kind : Kind} {cs : List Char}
    (h : tokens.map Token.word = cs.map fun c ↦ (String.ofList [c], kind)) :
    ∃ ms : List Mark, tokens = ms.map (·.token kind) ∧
      String.join (ms.map Mark.lexeme) = String.ofList cs := by
  induction cs generalizing tokens with
  | nil => exact ⟨[], List.map_eq_nil_iff.mp h, rfl⟩
  | cons c cs ih =>
    obtain ⟨m, rest, rfl, hm, hrest⟩ := exists_mark h
    obtain ⟨ms, rfl, hms⟩ := ih hrest
    refine ⟨m :: ms, rfl, ?_⟩
    rw [List.map_cons, String.join_cons, hms, hm, ← String.ofList_append]
    rfl

namespace Chunk.ShownBy

variable {chunks others : List Chunk} {tokens : List Token}

private theorem nil (h : ShownBy [] tokens) : tokens = [] := List.map_eq_nil_iff.mp h

private theorem word {lexeme : String} {kind : Kind}
    (h : ShownBy (.word lexeme kind :: chunks) tokens) :
    ∃ (m : Mark) (rest : List Token), tokens = m.token kind :: rest ∧ m.lexeme = lexeme ∧
      ShownBy chunks rest :=
  exists_mark h

private theorem append (h : ShownBy (chunks ++ others) tokens) :
    ∃ front back, tokens = front ++ back ∧ ShownBy chunks front ∧ ShownBy others back := by
  rw [ShownBy, List.flatMap_append] at h
  exact List.map_eq_append_iff.mp h

private theorem literal {value : String} (h : ShownBy [.literal value] tokens) :
    ∃ (opening closing : Mark) (chars : List Mark),
      tokens = opening.token .quote :: (chars.map (·.token .char) ++ [closing.token .quote]) ∧
      String.join (chars.map Mark.lexeme) = value := by
  rw [ShownBy, List.flatMap_singleton] at h
  obtain ⟨opening, _, rfl, _, hrest⟩ := exists_mark h
  obtain ⟨_, _, rfl, hchars, hback⟩ := List.map_eq_append_iff.mp hrest
  obtain ⟨closing, _, rfl, _, hend⟩ := exists_mark hback
  obtain rfl := List.map_eq_nil_iff.mp hend
  obtain ⟨chars, rfl, hjoin⟩ := exists_marks hchars
  exact ⟨opening, closing, chars, rfl, hjoin.trans String.ofList_toList⟩

/-- Tokens that show chunks in braces are a brace, those that show the chunks, and a brace. -/
theorem braced (h : ShownBy (Chunk.braced chunks) tokens) :
    ∃ opening inner closing, tokens = blockTokens opening inner closing ∧
      ShownBy chunks inner := by
  obtain ⟨opening, _, rfl, _, hrest⟩ := h.word
  obtain ⟨inner, _, rfl, hinner, hback⟩ := hrest.append
  obtain ⟨closing, _, rfl, _, hend⟩ := hback.word
  obtain rfl := hend.nil
  exact ⟨opening, inner, closing, rfl, hinner⟩

end Chunk.ShownBy

mutual

/-- Tokens that show an expression are those of a phrase that stands for it and has its tree. -/
theorem Term.exists_phrase : ∀ (t : Term) {tokens : List Token}, Chunk.ShownBy t.chunks tokens →
    ∃ e : ExprPhrase, tokens = e.tokens ∧ e.term = t ∧ e.shape = t.tree
  | .digit numeral, tokens, h => by
    rw [Term.chunks] at h
    obtain ⟨m, _, rfl, rfl, hrest⟩ := h.word
    obtain rfl := hrest.nil
    exact ⟨.digit m, rfl, rfl, rfl⟩
  | .sum numeral rest, tokens, h => by
    rw [Term.chunks] at h
    obtain ⟨m, _, rfl, rfl, h₁⟩ := h.word
    obtain ⟨plus, _, rfl, hplus, h₂⟩ := h₁.word
    obtain ⟨e, rfl, hterm, hshape⟩ := rest.exists_phrase h₂
    refine ⟨.sum m plus e, rfl, by rw [ExprPhrase.term, hterm], ?_⟩
    rw [ExprPhrase.shape, Term.tree, hshape, ← hplus]
    rfl
  | .text value, tokens, h => by
    rw [Term.chunks] at h
    obtain ⟨opening, closing, chars, rfl, hjoin⟩ := h.literal
    exact ⟨.text opening chars closing, rfl, by rw [ExprPhrase.term, hjoin],
      by rw [ExprPhrase.shape, hjoin, Term.tree]⟩
  | .test condition, tokens, h => by
    rw [Term.chunks] at h
    obtain ⟨b, rfl, hcondition, hshape⟩ := condition.exists_phrase h
    exact ⟨.bool b, rfl, by rw [ExprPhrase.term, hcondition],
      by rw [ExprPhrase.shape, hshape, Term.tree]⟩
  | .name name, tokens, h => by
    rw [Term.chunks] at h
    obtain ⟨m, _, rfl, rfl, hrest⟩ := h.word
    obtain rfl := hrest.nil
    exact ⟨.name m, rfl, rfl, rfl⟩

private theorem Condition.exists_phrase : ∀ (c : Condition) {tokens : List Token},
    Chunk.ShownBy c.chunks tokens →
      ∃ b : BoolPhrase, tokens = b.tokens ∧ b.condition = c ∧ b.shape = c.tree
  | .flag value, tokens, h => by
    rw [Condition.chunks] at h
    obtain ⟨m, _, rfl, hm, hrest⟩ := h.word
    obtain rfl := hrest.nil
    refine ⟨.value m, rfl, ?_, ?_⟩
    · rw [BoolPhrase.condition, hm]
      cases value <;> rfl
    · rw [BoolPhrase.shape, Condition.tree, ← hm]
      rfl
  | .compare left equal right, tokens, h => by
    rw [Condition.chunks] at h
    obtain ⟨opening, _, rfl, _, h₁⟩ := h.word
    obtain ⟨_, _, rfl, hleft, h₂⟩ := h₁.append
    obtain ⟨operator, _, rfl, hoperator, h₃⟩ := h₂.word
    obtain ⟨_, _, rfl, hright, h₄⟩ := h₃.append
    obtain ⟨closing, _, rfl, _, hrest⟩ := h₄.word
    obtain rfl := hrest.nil
    obtain ⟨l, rfl, hlterm, hlshape⟩ := left.exists_phrase hleft
    obtain ⟨r, rfl, hrterm, hrshape⟩ := right.exists_phrase hright
    refine ⟨.compare opening l operator r closing, rfl, ?_, ?_⟩
    · rw [BoolPhrase.condition, hlterm, hrterm, hoperator]
      cases equal <;> rfl
    · rw [BoolPhrase.shape, Condition.tree, hlshape, hrshape, ← hoperator]
      rfl

end

/-- Tokens that show a condition and chunks in braces are those of a phrase for the condition and of
a block. -/
theorem Chunk.ShownBy.guarded {lexeme : String} {kind : Kind} {condition : Condition}
    {chunks : List Chunk} {tokens : List Token}
    (h : ShownBy (.word lexeme kind :: (condition.chunks ++ Chunk.braced chunks)) tokens) :
    ∃ (word : Mark) (b : BoolPhrase) (opening : Mark) (inner : List Token) (closing : Mark),
      tokens = word.token kind :: (b.tokens ++ blockTokens opening inner closing) ∧
      b.condition = condition ∧ b.shape = condition.tree ∧ ShownBy chunks inner := by
  obtain ⟨word, _, rfl, _, hrest⟩ := h.word
  obtain ⟨_, _, rfl, hcondition, hbody⟩ := hrest.append
  obtain ⟨b, rfl, hb, hshape⟩ := condition.exists_phrase hcondition
  obtain ⟨opening, inner, closing, rfl, hinner⟩ := hbody.braced
  exact ⟨word, b, opening, inner, closing, rfl, hb, hshape, hinner⟩

private theorem VarType.ofKeyword_text (type : VarType) : VarType.ofKeyword type.text = type := by
  cases type <;> rfl

mutual

/-- Tokens that show a statement are those of a phrase that stands for it and has its tree. -/
theorem Command.exists_phrase : ∀ (c : Command) {tokens : List Token},
    Chunk.ShownBy c.chunks tokens →
      ∃ s : StmtPhrase, tokens = s.tokens ∧ s.command = c ∧ s.shape = c.tree
  | .print value, tokens, h => by
    rw [Command.chunks] at h
    obtain ⟨word, _, rfl, _, h₁⟩ := h.word
    obtain ⟨opening, _, rfl, _, h₂⟩ := h₁.word
    obtain ⟨_, _, rfl, hvalue, h₃⟩ := h₂.append
    obtain ⟨closing, _, rfl, _, hrest⟩ := h₃.word
    obtain rfl := hrest.nil
    obtain ⟨e, rfl, hterm, hshape⟩ := value.exists_phrase hvalue
    exact ⟨.print word opening e closing, by rw [StmtPhrase.tokens],
      by rw [StmtPhrase.command, hterm], by rw [StmtPhrase.shape, hshape, Command.tree]⟩
  | .assign name value, tokens, h => by
    rw [Command.chunks] at h
    obtain ⟨m, _, rfl, rfl, h₁⟩ := h.word
    obtain ⟨sign, _, rfl, _, h₂⟩ := h₁.word
    obtain ⟨e, rfl, hterm, hshape⟩ := value.exists_phrase h₂
    refine ⟨.assign m sign e, by rw [StmtPhrase.tokens], by rw [StmtPhrase.command, hterm], ?_⟩
    rw [StmtPhrase.shape, hshape, Command.tree]
    rfl
  | .declare type name, tokens, h => by
    rw [Command.chunks] at h
    obtain ⟨t, _, rfl, ht, h₁⟩ := h.word
    obtain ⟨m, _, rfl, rfl, hrest⟩ := h₁.word
    obtain rfl := hrest.nil
    refine ⟨.declare t m, by rw [StmtPhrase.tokens],
      by rw [StmtPhrase.command, ht, VarType.ofKeyword_text], ?_⟩
    rw [StmtPhrase.shape, Command.tree, ← ht]
    rfl
  | .whileDo condition body, tokens, h => by
    rw [Command.chunks] at h
    obtain ⟨word, b, opening, _, closing, rfl, hb, hbshape, hinner⟩ := h.guarded
    obtain ⟨ss, rfl, hss, hshapes⟩ := Command.exists_phrases body hinner
    exact ⟨.whileDo word b opening ss closing, by rw [StmtPhrase.tokens],
      by rw [StmtPhrase.command, hb, hss], by rw [StmtPhrase.shape, hbshape, hshapes, Command.tree]⟩
  | .ifThen condition body, tokens, h => by
    rw [Command.chunks] at h
    obtain ⟨word, b, opening, _, closing, rfl, hb, hbshape, hinner⟩ := h.guarded
    obtain ⟨ss, rfl, hss, hshapes⟩ := Command.exists_phrases body hinner
    exact ⟨.ifThen word b opening ss closing, by rw [StmtPhrase.tokens],
      by rw [StmtPhrase.command, hb, hss], by rw [StmtPhrase.shape, hbshape, hshapes, Command.tree]⟩
  | .block body, tokens, h => by
    rw [Command.chunks] at h
    obtain ⟨opening, _, closing, rfl, hinner⟩ := h.braced
    obtain ⟨ss, rfl, hss, hshapes⟩ := Command.exists_phrases body hinner
    exact ⟨.block opening ss closing, by rw [StmtPhrase.tokens],
      by rw [StmtPhrase.command, hss], by rw [StmtPhrase.shape, hshapes, Command.tree]⟩

private theorem Command.exists_phrases : ∀ (cs : List Command) {tokens : List Token},
    Chunk.ShownBy (Command.allChunks cs) tokens →
      ∃ ss : List StmtPhrase, tokens = StmtPhrase.allTokens ss ∧ StmtPhrase.commands ss = cs ∧
        StmtPhrase.shapes ss = Command.trees cs
  | [], tokens, h => by
    rw [Command.allChunks] at h
    exact ⟨[], h.nil, rfl, rfl⟩
  | c :: cs, tokens, h => by
    rw [Command.allChunks] at h
    obtain ⟨_, _, rfl, hfirst, hrest⟩ := h.append
    obtain ⟨s, rfl, hs, hshape⟩ := c.exists_phrase hfirst
    obtain ⟨ss, rfl, hss, hshapes⟩ := Command.exists_phrases cs hrest
    exact ⟨s :: ss, by rw [StmtPhrase.allTokens], by rw [StmtPhrase.commands, hs, hss],
      by rw [StmtPhrase.shapes, hshape, hshapes, Command.trees]⟩

end

/-! ### The round trip -/

/-- The source text is one way to write the program whose outermost block has the given
statements. -/
def WrittenProgram (statements : List Command) (source : String) : Prop :=
  ∃ lead text, source.toList = lead ++ text ∧ (∀ c ∈ lead, isGap c) ∧
    Written (Chunk.braced (Command.allChunks statements)) text

/-- What is written is scanned as the tokens of a program phrase for it. -/
theorem WrittenProgram.exists_phrase {statements : List Command} {source : String}
    (h : WrittenProgram statements source)
    (spelled : ∀ chunk ∈ Chunk.braced (Command.allChunks statements), chunk.Spelled) :
    ∃ p : ProgramPhrase, (Scan.ofSource source).result = .ok p.tokens ∧
      StmtPhrase.commands p.body = statements ∧
      p.shape = .node (.branch .block) (Command.trees statements) := by
  obtain ⟨lead, text, hsource, hlead, htext⟩ := h
  obtain ⟨q, hskip⟩ := Scan.ofChars_gap hlead text .start
  obtain ⟨hwords, rest, r, hending⟩ := Scan.ofChars_written htext spelled q
  have hscan : Scan.ofSource source = Scan.ofChars false 0 q text := by
    rw [Scan.ofSource, hsource, hskip]
  obtain ⟨front, back, htokens, hfront, hback⟩ := List.map_eq_append_iff.mp hwords
  obtain ⟨sentinel, _, rfl, _, hend⟩ := exists_mark hback
  obtain rfl := List.map_eq_nil_iff.mp hend
  obtain ⟨opening, inner, closing, rfl, hinner⟩ := Chunk.ShownBy.braced hfront
  obtain ⟨body, rfl, hcommands, hshapes⟩ := Command.exists_phrases statements hinner
  refine ⟨⟨opening, body, closing, sentinel⟩, ?_, hcommands, ?_⟩
  · rw [Scan.result, hscan, hending, htokens]
    rfl
  · rw [ProgramPhrase.shape, hshapes]

/-- A well-formed program whose chunks are spelled as they should be, written in any way with blanks
between them, is scanned, parsed and analysed. Without places and symbols, the result is the
program's tree. -/
theorem stages_of_written (statements : List Command) (source : String)
    (spelled : ∀ chunk ∈ Chunk.braced (Command.allChunks statements), chunk.Spelled)
    (wellFormed : WellFormedProgram statements) (written : WrittenProgram statements source) :
    ∃ tokens cst a root, (Scan.ofSource source).result = .ok tokens ∧
      (parse tokens).result = .ok cst ∧ (analyze cst).result = .ok a ∧ a.tree = [root] ∧
      root.shape = .node (.branch .block) (Command.trees statements) := by
  obtain ⟨p, hscan, rfl, hshape⟩ := written.exists_phrase spelled
  have hparse : (parse p.tokens).result = .ok [p.tree] := by
    refine parse_eq_ok.mpr ⟨[], ?_⟩
    have hprogram := Derivation.program_complete p []
    rwa [List.append_nil] at hprogram
  obtain ⟨frame, hcheck⟩ := p.check_eq_ok.mpr wellFormed
  obtain ⟨a, root, hanalyze, htree, hroot⟩ := analyze_of_check_ok hcheck
  exact ⟨p.tokens, [p.tree], a, root, hscan, hparse, hanalyze, htree, hroot.trans hshape⟩

/-- A program that compares a variable with a text. -/
def comparison : List Command :=
  [.declare .string "a", .ifThen (.compare (.name "a") true (.text "b c")) []]

/-- The comparison is written with blanks of all sorts. -/
theorem stages_of_written_comparison : ∃ tokens cst a root,
    (Scan.ofSource "\n\x7b\tstring a\r\nif ( a  == \"b c\" ) \x7b \x7d \x7d $ \x7d").result =
      .ok tokens ∧
    (parse tokens).result = .ok cst ∧ (analyze cst).result = .ok a ∧ a.tree = [root] ∧
    root.shape = .node (.branch .block) (Command.trees comparison) := by
  refine stages_of_written comparison _ ?_ ?_ ?_
  · simp only [comparison, Chunk.braced, Command.allChunks, Command.chunks, Condition.chunks,
      Term.chunks, List.cons_append, List.nil_append, List.append_nil, List.forall_mem_cons]
    refine ⟨rfl, .inr (.inl rfl), ⟨'a', rfl, rfl⟩, rfl, rfl, ⟨'a', rfl, rfl⟩, .inl rfl, ?_, rfl,
      rfl, rfl, rfl, by simp⟩
    exact List.all_eq_true.mp (show "b c".toList.all isTextChar = true by decide +kernel)
  · exact ⟨_, .cons (.declare rfl) (.cons (.ifThen (.compare (.name rfl) .text) .nil) .nil)⟩
  · have hgap (c : Char) (hc : isGap c) : ∀ d ∈ [c], isGap d := List.forall_mem_singleton.mpr hc
    have htwo (b c : Char) (hb : isGap b) (hc : isGap c) : ∀ d ∈ [b, c], isGap d :=
      List.forall_mem_cons.mpr ⟨hb, hgap c hc⟩
    refine ⟨['\n'], _, ?_, hgap '\n' rfl, .chunk (hgap '\t' rfl) (.chunk (hgap ' ' rfl)
      (.chunk (htwo '\r' '\n' rfl rfl) (.chunk (hgap ' ' rfl) (.chunk (hgap ' ' rfl)
      (.chunk (htwo ' ' ' ' rfl rfl) (.chunk (hgap ' ' rfl) (.chunk (hgap ' ' rfl)
      (.chunk (hgap ' ' rfl) (.chunk (hgap ' ' rfl) (.chunk (hgap ' ' rfl) (.chunk (hgap ' ' rfl)
      (@Written.sentinel [' ', '\x7d']))))))))))))⟩
    decide +kernel

end OnePage
